import Mathlib.Data.List.Pairwise
import TestProgram.Proofs.Sheet.Versions
import TestProgram.Sheet.PatternSets

/-!
# Contents of entries

Contents are told apart by their keys. Unifying a sheet keeps the first of the entries that share
a base name and a key (`plain_unify`). So it keeps the first of all entries that are the same and
loses no other one just if no two entries of a base name have different contents with the same
key (`lossless_iff`). A key is made of the parts of a content with a separator between them. If no
part contains it, contents with the same key are the same (`TestInstance.key_inj`,
`PatternSet.key_inj`), and no entry is lost. Otherwise entries can be lost.
-/

namespace TestProgram

/-- Erasing repetitions under a relation that compares images erases the repetitions of images. -/
theorem map_eraseDupsBy {α β : Type} [BEq β] [LawfulBEq β] (g : α → β) {r : α → α → Bool} : ∀ l : List α,
    (∀ x ∈ l, ∀ y ∈ l, r x y = (g x == g y)) → (l.eraseDupsBy r).map g = (l.map g).eraseDups
  | [], _ => rfl
  | x :: l, h => by
    have hfilter : (l.filter fun y => decide (r y x = false)).map g = (l.map g).filter fun z => !z == g x := by
      rw [List.filter_map]
      refine congrArg (List.map g) (List.filter_congr fun y hy => ?_)
      rw [h y (List.mem_cons_of_mem x hy) x (List.mem_cons_self ..), Function.comp_apply]
      cases g y == g x <;> rfl
    have hrest : ∀ y ∈ l.filter fun y => decide (r y x = false), ∀ z ∈ l.filter fun y => decide (r y x = false),
        r y z = (g y == g z) := fun y hy z hz =>
      h y (List.mem_cons_of_mem x (List.mem_of_mem_filter hy)) z (List.mem_cons_of_mem x (List.mem_of_mem_filter hz))
    rw [List.eraseDupsBy_cons, List.map_cons, List.map_cons, List.eraseDups_cons, ← hfilter, map_eraseDupsBy g _ hrest]
termination_by l => l.length
decreasing_by exact Nat.lt_succ_of_le (List.length_filter_le _ _)

namespace Sheet

variable {α : Type} [SheetContent α]

/-! ## Entries that are kept -/

/-- The entries that no entry before them agrees with are the first ones. -/
theorem firsts_eq : ∀ seen es : List (SheetEntry α),
    firsts seen es = (es.filter fun e => !seen.any e.agrees).eraseDupsBy SheetEntry.agrees
  | _, [] => rfl
  | seen, e :: es => by
    rw [firsts, List.filter_cons]
    cases hseen : seen.any e.agrees with
    | true => exact firsts_eq seen es
    | false =>
      have hnew (f : SheetEntry α) :
          (!(e :: seen).any f.agrees) = (decide (f.agrees e = false) && !seen.any f.agrees) := by
        rw [List.any_cons, Bool.not_or]
        cases f.agrees e <;> rfl
      rw [if_neg Bool.false_ne_true, Bool.not_false, if_pos rfl, List.eraseDupsBy_cons, firsts_eq (e :: seen) es,
        List.filter_filter]
      simp only [hnew]

/-- A unified sheet has the first of the entries that agree. -/
theorem plain_unify (s : Sheet α) : s.unify.2.entries.map SheetEntry.plain =
    (s.entries.eraseDupsBy SheetEntry.agrees).map SheetEntry.plain := by
  have hall : (s.entries.filter fun e => !([] : List (SheetEntry α)).any e.agrees) = s.entries :=
    List.filter_eq_self.mpr fun _ _ => rfl
  rw [unify_snd, versioned, List.map_map, firsts_eq, hall]
  rfl

variable [DecidableEq α]

/-- Unifying the sheet leaves the first occurrences of entries and leaves out repetitions only,
whatever the versions are. -/
def Lossless (s : Sheet α) : Prop := s.unify.2.entries.map SheetEntry.plain = (s.entries.map SheetEntry.plain).eraseDups

/-- Entries of the sheet that have the same base name and key have the same contents. -/
def KeysTell (s : Sheet α) : Prop := ∀ e ∈ s.entries, ∀ f ∈ s.entries, e.agrees f → e.content = f.content

theorem lossless_iff (s : Sheet α) : s.Lossless ↔ s.KeysTell := by
  constructor
  · intro h e he f hf hagrees
    have hkept {e : SheetEntry α} (he : e ∈ s.entries) : ∃ e' ∈ s.unify.2.entries, e'.plain = e.plain := by
      have hmem := List.mem_eraseDups.mpr (List.mem_map_of_mem (f := SheetEntry.plain) he)
      rw [← h] at hmem
      exact List.mem_map.mp hmem
    obtain ⟨e', he', heplain⟩ := hkept he
    obtain ⟨f', hf', hfplain⟩ := hkept hf
    -- Kept entries that agree are the same one.
    obtain rfl : e' = f' := by
      by_contra hne
      have hsymm : Std.Symm fun e f : SheetEntry α => f.agrees e = false := ⟨fun e f h => (e.agrees_comm f).trans h⟩
      have hapart := s.apart_unify.forall hf' he' (Ne.symm hne)
      rw [SheetEntry.agrees_of_plain heplain hfplain, hagrees] at hapart
      cases hapart
    exact congrArg Prod.snd (heplain.symm.trans hfplain)
  · intro h
    refine s.plain_unify.trans (map_eraseDupsBy SheetEntry.plain s.entries fun e he f hf => ?_)
    rw [Bool.eq_iff_iff, beq_iff_eq]
    constructor
    · exact fun hagrees => Prod.ext (SheetEntry.agrees_iff.mp hagrees).1 (h e he f hf hagrees)
    · intro hplain
      rw [SheetEntry.agrees_of_plain hplain rfl]
      exact f.agrees_refl

end Sheet

/-! ## Keys -/

/-- The parts of a text that are put together with a separator, if none of them contains it. -/
theorem intercalate_inj {separator : Char} {parts parts' : List String} (hparts : parts ≠ []) (hparts' : parts' ≠ [])
    (h : ∀ part ∈ parts, separator ∉ part.toList) (h' : ∀ part ∈ parts', separator ∉ part.toList)
    (heq : (String.singleton separator).intercalate parts = (String.singleton separator).intercalate parts') :
    parts = parts' := by
  have hsplit {parts : List String} (hparts : parts ≠ []) (h : ∀ part ∈ parts, separator ∉ part.toList) :
      List.splitOn separator ((String.singleton separator).intercalate parts).toList = parts.map String.toList := by
    rw [String.toList_intercalate, String.toList_singleton]
    exact List.splitOn_intercalate separator (List.forall_mem_map.mpr h) (mt List.map_eq_nil_iff.mp hparts)
  have htexts : parts.map String.toList = parts'.map String.toList := by
    rw [← hsplit hparts h, heq, hsplit hparts' h']
  exact List.map_injective_iff.mpr (fun _ _ => String.toList_inj.mp) htexts

namespace TestInstance

/-- The key of an instance has its kind and its attributes as parts. -/
theorem key_eq (t : TestInstance) : SheetContent.key t = keySeparator.intercalate (t.kind :: t.attrTexts) := by
  have hjoin : ∀ (texts : List String) (first : String),
      String.join (first :: texts.map (keySeparator ++ ·)) = keySeparator.intercalate (first :: texts) := by
    intro texts
    induction texts with
    | nil => exact fun first => by rw [List.map_nil, String.join_cons, String.join_nil, String.append_empty,
      String.intercalate_singleton]
    | cons text texts ih =>
      intro first
      rw [List.map_cons, String.join_cons, String.join_cons, String.intercalate_cons_cons, ← ih, String.join_cons,
        String.append_assoc, String.append_assoc]
  exact hjoin t.attrTexts t.kind

/-- An attribute from its text. The key ends at the first equals sign. -/
def readAttr (text : String) : String × String :=
  (String.ofList (text.toList.takeWhile (· ≠ '=')), String.ofList (text.toList.dropWhile (· ≠ '=')).tail)

theorem readAttr_text {key : String} (value : String) (hkey : '=' ∉ key.toList) :
    readAttr (key ++ "=" ++ value) = (key, value) := by
  have htext : (key ++ "=" ++ value).toList = key.toList ++ '=' :: value.toList := by
    rw [String.toList_append, String.toList_append, List.append_assoc]
    rfl
  have hplain : ∀ c ∈ key.toList, decide (c ≠ '=') = true := fun c hc => decide_eq_true fun heq => hkey (heq ▸ hc)
  rw [readAttr, htext, List.takeWhile_append_of_pos hplain, List.dropWhile_append_of_pos hplain,
    List.takeWhile_cons_of_neg (by decide), List.dropWhile_cons_of_neg (by decide), List.append_nil, List.tail_cons,
    String.ofList_toList, String.ofList_toList]

/-- No part of the instance contains the separator, and no key of an attribute an equals sign. -/
structure Delimited (t : TestInstance) : Prop where
  kind : '\x1f' ∉ t.kind.toList
  keys : ∀ attr ∈ t.attrs, '\x1f' ∉ attr.1.toList ∧ '=' ∉ attr.1.toList
  values : ∀ attr ∈ t.attrs, '\x1f' ∉ attr.2.toList

namespace Delimited

variable {t u : TestInstance}

theorem attrs_eq (h : t.Delimited) : t.attrTexts.map readAttr = t.attrs := by
  rw [attrTexts, List.map_map]
  exact (List.map_congr_left fun attr hattr => readAttr_text attr.2 (h.keys attr hattr).2).trans (List.map_id _)

theorem parts (h : t.Delimited) : ∀ part ∈ t.kind :: t.attrTexts, '\x1f' ∉ part.toList := by
  refine List.forall_mem_cons.mpr ⟨h.kind, List.forall_mem_map.mpr fun attr hattr => ?_⟩
  rw [String.toList_append, String.toList_append, List.mem_append, List.mem_append]
  rintro ((hkey | hequals) | hvalue)
  · exact (h.keys attr hattr).1 hkey
  · exact absurd hequals (by decide)
  · exact h.values attr hattr hvalue

end Delimited

theorem key_inj {t u : TestInstance} (ht : t.Delimited) (hu : u.Delimited)
    (h : SheetContent.key t = SheetContent.key u) : t = u := by
  rw [key_eq, key_eq] at h
  obtain ⟨hkind, htexts⟩ := List.cons.inj
    (intercalate_inj (List.cons_ne_nil _ _) (List.cons_ne_nil _ _) ht.parts hu.parts h)
  have hattrs : t.attrs = u.attrs := by rw [← ht.attrs_eq, htexts, hu.attrs_eq]
  obtain ⟨kind, attrs⟩ := t
  obtain rfl := hkind
  obtain rfl := hattrs
  rfl

end TestInstance

namespace PatternSet

/-- The set has patterns, and none of their names contains the separator. -/
structure Delimited (s : PatternSet) : Prop where
  nonempty : s.patterns ≠ []
  names : ∀ name ∈ s.patterns, '\x1f' ∉ name.toList

theorem key_inj {s t : PatternSet} (hs : s.Delimited) (ht : t.Delimited)
    (h : SheetContent.key s = SheetContent.key t) : s = t :=
  congrArg PatternSet.mk (intercalate_inj hs.nonempty ht.nonempty hs.names ht.names h)

end PatternSet

/-! ## Unified sheets -/

namespace Sheet

variable {α : Type} [SheetContent α]

/-- Keys tell contents apart if they do so for contents of that kind. -/
theorem keysTell_of_forall {clean : α → Prop} {s : Sheet α} (h : ∀ e ∈ s.entries, clean e.content)
    (hinj : ∀ {t u : α}, clean t → clean u → SheetContent.key t = SheetContent.key u → t = u) : s.KeysTell :=
  fun e he f hf hagrees => hinj (h e he) (h f hf) (SheetEntry.agrees_iff.mp hagrees).2

/-- Which entries unifying the sheet leaves. -/
structure Kept [DecidableEq α] (clean : α → Prop) (s : Sheet α) : Prop where
  /-- The first ones of each base name and key are left, -/
  firsts : s.unify.2.entries.map SheetEntry.plain = (s.entries.eraseDupsBy SheetEntry.agrees).map SheetEntry.plain
  /-- and these are the first ones of each base name and content just if keys tell contents apart, -/
  lossless : s.Lossless ↔ s.KeysTell
  /-- which they do if all contents are clean. -/
  clean : (∀ e ∈ s.entries, clean e.content) → s.Lossless

/-- Unifying sheets of instances and of pattern sets loses an entry just if it has the key of an
entry before with the same base name and another content. -/
theorem unify_kept (instances : Sheet TestInstance) (sets : Sheet PatternSet) :
    instances.Kept TestInstance.Delimited ∧ sets.Kept PatternSet.Delimited :=
  ⟨⟨instances.plain_unify, instances.lossless_iff,
    fun h => instances.lossless_iff.mpr (keysTell_of_forall h fun ht hu => TestInstance.key_inj ht hu)⟩,
  ⟨sets.plain_unify, sets.lossless_iff,
    fun h => sets.lossless_iff.mpr (keysTell_of_forall h fun hs ht => PatternSet.key_inj hs ht)⟩⟩

/-- Three instances, the last of which is the first one again. -/
def eraseInstances : Sheet TestInstance := ⟨"instances", [⟨"erase", ⟨"functional", [("pattern", "erase_all")]⟩, none⟩,
  ⟨"erase", ⟨"functional", [("pattern", "erase_sector")]⟩, none⟩,
  ⟨"erase", ⟨"functional", [("pattern", "erase_all")]⟩, none⟩]⟩

def eraseSets : Sheet PatternSet := ⟨"patsets", [⟨"nvm", ⟨["erase_all", "erase_verify"]⟩, none⟩,
  ⟨"nvm", ⟨["erase_all"]⟩, none⟩]⟩

theorem erase_lossless : eraseInstances.Lossless ∧ eraseSets.Lossless := by
  obtain ⟨hinstances, hsets⟩ := unify_kept eraseInstances eraseSets
  refine ⟨hinstances.clean fun e he => ?_, hsets.clean fun e he => ?_⟩
  · simp only [eraseInstances, List.mem_cons, List.not_mem_nil, or_false] at he
    rcases he with rfl | rfl | rfl <;> exact ⟨by decide, by decide, by decide⟩
  · simp only [eraseSets, List.mem_cons, List.not_mem_nil, or_false] at he
    rcases he with rfl | rfl <;> exact ⟨by decide, by decide⟩

/-- Two instances with the attribute text `a=b=c`. -/
def equalsInstances : Sheet TestInstance := ⟨"instances", [⟨"e", ⟨"f", [("a", "b=c")]⟩, none⟩,
  ⟨"e", ⟨"f", [("a=b", "c")]⟩, none⟩]⟩

/-- No pattern, and one pattern with an empty name. -/
def emptySets : Sheet PatternSet := ⟨"patsets", [⟨"p", ⟨[]⟩, none⟩, ⟨"p", ⟨[""]⟩, none⟩]⟩

/-- Entries with different contents are lost in sheets of both kinds. -/
theorem not_forall_lossless : (¬ ∀ s : Sheet TestInstance, s.Lossless) ∧ ¬ ∀ s : Sheet PatternSet, s.Lossless := by
  constructor
  · intro h
    have hcontent := equalsInstances.lossless_iff.mp (h _) _ (List.mem_cons_self ..) _
      (List.mem_cons_of_mem _ (List.mem_cons_self ..)) (by decide)
    revert hcontent
    decide
  · intro h
    have hcontent := emptySets.lossless_iff.mp (h _) _ (List.mem_cons_self ..) _
      (List.mem_cons_of_mem _ (List.mem_cons_self ..)) (by decide)
    revert hcontent
    decide

end Sheet

end TestProgram
