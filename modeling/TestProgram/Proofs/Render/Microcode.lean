import TestProgram.Render

/-!
# Reading vector tables

A tester reads the microcode field of a vector line, which ends at the first
`>`: it takes the line for the cycles of a `repeat`, and for one cycle without
one, and captures the device's answer if the field is `stv`. The field has
room for one instruction, so a line says less than a record can ask for. What
is read from the line of a record is given by `lineCycles_vectorLine` and
`lineStored_vectorLine`, and what is lost by `line_exact_iff`.
-/

namespace TestProgram

theorem Text.toList_pushn (s : String) (c : Char) (n : Nat) :
    (s.pushn c n).toList = s.toList ++ List.replicate n c := by
  rw [String.pushn_eq_repeat_push]
  induction n with
  | zero => simp [Nat.repeat]
  | succ n ih => simp [Nat.repeat, ih, List.replicate_succ']

namespace VectorTable

/-! ## Reading -/

/-- The words of a text, between spaces. -/
def words (cs : List Char) : List String := ((cs.splitOn ' ').filter fun w => !w.isEmpty).map String.ofList

/-- The microcode field of a line, word by word. -/
def fieldWords (line : String) : List String := words (line.toList.takeWhile (· != '>'))

/-- The cycles that a line stands for. -/
def lineCycles (line : String) : Nat :=
  match fieldWords line with
  | ["repeat", count] => Nat.ofDigitChars 10 count.toList 0
  | _ => 1

/-- Whether a line captures the device's answer. -/
def lineStored (line : String) : Bool := (fieldWords line).head? == some "stv"

/-- The cycles that lines stand for one after the other. -/
def readCycles : List String → Nat
  | [] => 0
  | line :: lines => lineCycles line + readCycles lines

theorem words_append_space (w cs : List Char) : words (w ++ ' ' :: cs) = words w ++ words cs := by
  rw [words, List.splitOn_append_cons_self, List.filter_append, List.map_append]
  rfl

theorem words_spaces (n : Nat) : words (List.replicate n ' ') = [] := by
  induction n with
  | zero => rfl
  | succ n ih =>
    show words ([] ++ ' ' :: List.replicate n ' ') = []
    rw [words_append_space, ih]
    rfl

theorem words_padded (w : List Char) (n : Nat) : words (w ++ List.replicate n ' ') = words w := by
  cases n with
  | zero => rw [List.replicate_zero, List.append_nil]
  | succ n => rw [List.replicate_succ, words_append_space, words_spaces, List.append_nil]

theorem words_of_space_notMem {w : List Char} (hne : w ≠ []) (hspace : ' ' ∉ w) : words w = [String.ofList w] := by
  rw [words, List.splitOn_eq_singleton hspace]
  cases w with
  | nil => exact absurd rfl hne
  | cons c w => rfl

/-! ## The line of a record -/

theorem toList_vectorLine (r : VectorRecord) : ∃ n rest, (vectorLine r).toList =
    (microcode r).text.toList ++ List.replicate n ' ' ++ '>' :: rest := by
  refine ⟨24 - (microcode r).text.length, (" " ++ r.timeset ++ " " ++ columns r.states ++ " ;").toList, ?_⟩
  have hpad : (Text.padRight 24 (microcode r).text).toList =
      (microcode r).text.toList ++ List.replicate (24 - (microcode r).text.length) ' ' := by
    rw [Text.padRight, String.toList_append, Text.toList_pushn, String.toList_empty, List.nil_append]
  simp only [vectorLine, String.toList_append, hpad]
  simp

/-- Without a `>` in it, the field is the text of the microcode. -/
theorem fieldWords_vectorLine {r : VectorRecord} (h : '>' ∉ (microcode r).text.toList) :
    fieldWords (vectorLine r) = words (microcode r).text.toList := by
  obtain ⟨n, rest, hline⟩ := toList_vectorLine r
  have hfield : ∀ c ∈ (microcode r).text.toList ++ List.replicate n ' ', (c != '>') = true := by
    intro c hc
    rcases List.mem_append.mp hc with hc | hc
    · exact bne_iff_ne.mpr fun heq => h (heq ▸ hc)
    · rw [List.eq_of_mem_replicate hc]
      rfl
  rw [fieldWords, hline, List.takeWhile_append_of_pos hfield]
  simp [words_padded]

/-- The name of a subroutine may be anything, but the instruction is read
first. -/
theorem fieldWords_call {r : VectorRecord} {target : String} (h : r.call = some target) :
    ∃ rest, fieldWords (vectorLine r) = "call" :: rest := by
  obtain ⟨n, rest, hline⟩ := toList_vectorLine r
  have htext : (microcode r).text.toList = "call".toList ++ ' ' :: target.toList := by
    rw [microcode, h, Microcode.text, String.toList_append]
    rfl
  have hfield : ∀ c ∈ "call".toList ++ [' '], (c != '>') = true := List.all_eq_true.mp rfl
  refine ⟨words ((target.toList ++ List.replicate n ' ' ++ '>' :: rest).takeWhile (· != '>')), ?_⟩
  have hsplit : (vectorLine r).toList =
      ("call".toList ++ [' ']) ++ (target.toList ++ List.replicate n ' ' ++ '>' :: rest) := by
    rw [hline, htext]
    simp
  rw [fieldWords, hsplit, List.takeWhile_append_of_pos hfield, List.append_assoc, List.singleton_append,
    words_append_space]
  rfl

theorem isDigit_of_mem_toString {n : Nat} : ∀ c ∈ (toString n).toList, c.isDigit = true := by
  intro c hc
  rw [Nat.toString_eq_repr, Nat.toList_repr] at hc
  exact Nat.isDigit_of_mem_toDigits (by decide) (by decide) hc

theorem toList_repeat (n : Nat) :
    (Microcode.repeat n).text.toList = "repeat".toList ++ ' ' :: (toString n).toList := by
  show (toString "repeat " ++ toString n).toList = _
  rw [String.toList_append]
  rfl

theorem words_repeat (n : Nat) : words (Microcode.repeat n).text.toList = ["repeat", toString n] := by
  have hspace : ' ' ∉ (toString n).toList := fun h => absurd (isDigit_of_mem_toString _ h) (by decide)
  have hne : (toString n).toList ≠ [] := by
    rw [Nat.toString_eq_repr, Nat.toList_repr]
    exact Nat.toDigits_ne_nil
  rw [toList_repeat, words_append_space, words_of_space_notMem hne hspace, String.ofList_toList]
  rfl

theorem gt_notMem_repeat (n : Nat) : '>' ∉ (Microcode.repeat n).text.toList := by
  rw [toList_repeat]
  intro h
  rcases List.mem_append.mp h with h | h
  · exact absurd h (by decide)
  · rcases List.mem_cons.mp h with h | h
    · exact absurd h (by decide)
    · exact absurd (isDigit_of_mem_toString _ h) (by decide)

/-- The field of a line, for each kind of record. -/
theorem fieldWords_of_call_eq_none {r : VectorRecord} (h : r.call = none) : fieldWords (vectorLine r) =
    if r.store then ["stv"] else if 1 < r.count then ["repeat", toString r.count] else [] := by
  by_cases hstore : r.store = true
  · have hcode : microcode r = .store := by simp [microcode, h, hstore]
    rw [fieldWords_vectorLine (by rw [hcode]; decide), hcode, if_pos hstore]
    rfl
  · by_cases hcount : 1 < r.count
    · have hcode : microcode r = .repeat r.count := by simp [microcode, h, hstore, hcount]
      rw [fieldWords_vectorLine (by rw [hcode]; exact gt_notMem_repeat r.count), hcode, words_repeat,
        if_neg hstore, if_pos hcount]
    · have hcode : microcode r = .none := by simp [microcode, h, hstore, hcount]
      rw [fieldWords_vectorLine (by rw [hcode]; decide), hcode, if_neg hstore, if_neg hcount]
      rfl

/-- A line has the repeat count of its record unless there is a call or a
store. -/
theorem lineCycles_vectorLine (r : VectorRecord) : lineCycles (vectorLine r) =
    if r.call = none ∧ r.store = false ∧ 1 < r.count then r.count else 1 := by
  cases hcall : r.call with
  | some target =>
    obtain ⟨rest, hwords⟩ := fieldWords_call hcall
    simp [lineCycles, hwords]
  | none =>
    rw [lineCycles, fieldWords_of_call_eq_none hcall]
    by_cases hstore : r.store = true
    · simp [hstore]
    · by_cases hcount : 1 < r.count
      · simp [hstore, hcount, Nat.toString_eq_repr, Nat.ofDigitChars_toDigits]
      · simp [hstore, hcount]

/-- A line has the store of its record unless there is a call. -/
theorem lineStored_vectorLine (r : VectorRecord) : lineStored (vectorLine r) = (r.call.isNone && r.store) := by
  cases hcall : r.call with
  | some target =>
    obtain ⟨rest, hwords⟩ := fieldWords_call hcall
    simp [lineStored, hwords]
  | none =>
    rw [lineStored, fieldWords_of_call_eq_none hcall]
    by_cases hstore : r.store = true
    · simp [hstore]
    · by_cases hcount : 1 < r.count <;> simp [hstore, hcount]

/-! ## What is lost -/

theorem lineCycles_eq_iff {r : VectorRecord} (hpos : 0 < r.count) (hcall : r.call.isSome = true → r.count ≤ 1) :
    lineCycles (vectorLine r) = r.count ↔ (r.store = true → r.call = none → r.count = 1) := by
  rw [lineCycles_vectorLine]
  cases hc : r.call with
  | some target =>
    have : r.count ≤ 1 := hcall (by rw [hc]; rfl)
    simp
    omega
  | none =>
    cases hs : r.store <;> simp <;> omega

/-- A line says all about its record exactly if there is no store, or one in a
record of one cycle without a call. -/
theorem line_exact_iff {r : VectorRecord} (hpos : 0 < r.count) (hcall : r.call.isSome = true → r.count ≤ 1) :
    lineCycles (vectorLine r) = r.count ∧ lineStored (vectorLine r) = r.store ↔
      (r.store = true → r.call = none ∧ r.count = 1) := by
  rw [lineCycles_eq_iff hpos hcall, lineStored_vectorLine]
  cases hc : r.call <;> cases hs : r.store <;> simp

theorem lineCycles_le {r : VectorRecord} (hpos : 0 < r.count) : lineCycles (vectorLine r) ≤ r.count := by
  rw [lineCycles_vectorLine]
  split
  · exact Nat.le_refl _
  · exact hpos

theorem readCycles_le {records : List VectorRecord} (hpos : ∀ r ∈ records, 0 < r.count) :
    readCycles (records.map vectorLine) ≤ totalCount records := by
  induction records with
  | nil => exact Nat.le_refl _
  | cons r records ih =>
    obtain ⟨hr, hrest⟩ := List.forall_mem_cons.mp hpos
    exact Nat.add_le_add (lineCycles_le hr) (ih hrest)

/-- No line stands for more cycles than its record, so the cycles add up only
if each line has all of them. -/
theorem readCycles_eq_iff {records : List VectorRecord} (hpos : ∀ r ∈ records, 0 < r.count) :
    readCycles (records.map vectorLine) = totalCount records ↔
      ∀ r ∈ records, lineCycles (vectorLine r) = r.count := by
  induction records with
  | nil => simp [readCycles, totalCount]
  | cons r records ih =>
    obtain ⟨hr, hrest⟩ := List.forall_mem_cons.mp hpos
    have hfirst := lineCycles_le hr
    have hmore := readCycles_le hrest
    have htail := ih hrest
    rw [List.forall_mem_cons, List.map_cons, readCycles, totalCount]
    constructor
    · intro h
      exact ⟨by omega, htail.mp (by omega)⟩
    · rintro ⟨hsame, hall⟩
      have := htail.mpr hall
      omega

/-! ## Written patterns -/

/-- The lines of an item. -/
def itemText (defined : List String) : Item → List String
  | .vector r => (r.label.map (labelLine defined)).toList ++ [vectorLine r]
  | .comment text => ["// " ++ text]
  | .loopStart label count => [s!"{label}: set_loop_a {count} ;"]
  | .loopEnd label => ["end_loop_a " ++ label ++ " ;"]

theorem itemLines_eq_ok {limit : Option Nat} {defined : List String} {i : Item} {text : List String}
    (h : itemLines limit defined i = .ok text) : text = itemText defined i := by
  cases i with
  | vector r =>
    rw [itemLines] at h
    split at h
    · cases h
    · exact (Except.ok.inj h).symm
  | comment text => exact (Except.ok.inj h).symm
  | loopStart label count => exact (Except.ok.inj h).symm
  | loopEnd label => exact (Except.ok.inj h).symm

theorem mapM_itemLines_eq_ok {limit : Option Nat} {defined : List String} {items : List Item}
    {body : List (List String)} (h : items.mapM (itemLines limit defined) = .ok body) :
    body = items.map (itemText defined) := by
  induction items generalizing body with
  | nil => exact (Except.ok.inj h).symm
  | cons i items ih =>
    rw [List.mapM_cons] at h
    obtain ⟨first, hfirst, h⟩ := bind_eq_ok.mp h
    obtain ⟨rest, hrest, h⟩ := bind_eq_ok.mp h
    obtain rfl := Except.ok.inj h
    rw [itemLines_eq_ok hfirst, ih hrest, List.map_cons]

/-- A pattern that is written is written item by item. -/
theorem lines_eq_ok {limit : Option Nat} {p : Pattern} {text : List String} (h : lines limit p = .ok text) :
    text = opening p ++ p.items.flatMap (itemText p.defined) ++ ["\x7d"] := by
  obtain ⟨body, hbody, h⟩ := bind_eq_ok.mp h
  obtain rfl := Except.ok.inj h
  rw [mapM_itemLines_eq_ok hbody, List.flatMap_def]

end VectorTable

theorem Platform.render_table {platform : Platform} (hplatform : platform = .j750 ∨ platform = .ultraFlex)
    {header : List String} {p : Pattern} {text : String} (h : platform.render header p = .ok text) :
    text = Text.unlines (header.map (fun line => platform.comment ++ " " ++ line) ++
      (VectorTable.opening p ++ p.items.flatMap (VectorTable.itemText p.defined) ++ ["\x7d"])) := by
  rw [render] at h
  split at h
  · rename_i lines hlines
    obtain rfl := Except.ok.inj h
    have htable : VectorTable.lines platform.maxRepeat p = .ok lines := by
      rcases hplatform with rfl | rfl <;> exact hlines
    rw [VectorTable.lines_eq_ok htable]
  · exact nomatch h

end TestProgram
