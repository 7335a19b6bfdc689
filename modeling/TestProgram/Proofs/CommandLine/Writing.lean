import TestProgram.CommandLine.Disk

/-!
# Writing into a directory

A file that is written under a name in a directory is read back under its path, also after further files have
been written under other names (`Disk.Holds.put`): none of these takes its place, and a file is no directory on
the way to others. So a delivery that succeeds leaves each of its files that no later one has the name of
(`Delivery.read_of_carryOut`).
-/

namespace TestProgram

namespace Text

theorem split_of_notMem {sep : Char} : ∀ {cs : List Char}, sep ∉ cs → split sep cs = [cs]
  | [], _ => rfl
  | c :: cs, h => by
    obtain ⟨hc, hcs⟩ := not_or.mp (mt List.mem_cons.mpr h)
    rw [split, if_neg (Ne.symm hc), split_of_notMem hcs]

theorem split_append (sep : Char) (ds : List Char) : ∀ cs : List Char,
    split sep (cs ++ sep :: ds) = split sep cs ++ split sep ds
  | [] => by
    rw [List.nil_append, split.eq_2, if_pos rfl]
    rfl
  | c :: cs => by
    rw [List.cons_append, split.eq_2, split_append sep ds cs, split.eq_2]
    by_cases hc : c = sep
    · rw [if_pos hc, if_pos hc, List.cons_append]
    · rw [if_neg hc, if_neg hc]
      cases hsplit : split sep cs with
      | nil => exact absurd hsplit (split_ne_nil sep cs)
      | cons part parts => rfl

end Text

namespace Disk

/-! ## Names -/

/-- What a file in a directory can be named. -/
structure IsName (name : String) : Prop where
  slash : '/' ∉ name.toList
  stays : ¬ (name = "" ∨ name = ".")
  descends : name ≠ ".."

theorem isName_of_length {name : String} (hslash : '/' ∉ name.toList) (hlength : 2 < name.toList.length) :
    IsName name := by
  have hne : ∀ other : String, other.toList.length ≤ 2 → name ≠ other := by
    rintro other hother rfl
    omega
  exact ⟨hslash, not_or.mpr ⟨hne "" (by decide), hne "." (by decide)⟩, hne ".." (by decide)⟩

/-- The name of a file is the last one in its path. -/
theorem exists_names_joinPath (directory : String) {file : String} (hfile : IsName file) :
    ∃ ns, names (CommandLine.joinPath directory file) = ns ++ [file] := by
  have hjoin : ∃ cs, (CommandLine.joinPath directory file).toList = cs ++ '/' :: file.toList := by
    unfold CommandLine.joinPath
    split
    · rename_i hends
      rw [← String.endsWith_toSlice, String.Slice.endsWith_string_iff, String.copy_toSlice] at hends
      obtain ⟨cs, hcs⟩ := hends
      exact ⟨cs, by rw [String.toList_append, ← hcs, List.append_assoc]; rfl⟩
    · exact ⟨directory.toList, by rw [String.toList_append, String.toList_append, List.append_assoc]; rfl⟩
  obtain ⟨cs, hcs⟩ := hjoin
  refine ⟨(Text.split '/' cs).map String.ofList, ?_⟩
  rw [names, hcs, Text.split_append, Text.split_of_notMem hfile.slash, List.map_append, List.map_singleton,
    String.ofList_toList]

/-! ## Following a path -/

theorem follow_append (d : Disk) (names : List String) : ∀ (r : Route) (ns : List String),
    d.follow r (ns ++ names) = match d.follow r ns with
      | .directory next => d.follow next names
      | .file next text => if names.isEmpty then .file next text else .blocked
      | .free next => if names.all (· == "") then .free next else .missing
      | place => place
  | r, [] => rfl
  | r, n :: ns => by
    rw [List.cons_append, follow, follow]
    cases d.step r n with
    | directory next => exact follow_append d names next ns
    | file next text => cases ns <;> rfl
    | free next =>
      dsimp only
      rw [List.all_append]
      cases ns.all (· == "") <;> rfl
    | missing | blocked => rfl

theorem follow_singleton (d : Disk) (r : Route) (name : String) : d.follow r [name] = d.step r name := by
  rw [follow]
  cases d.step r name <;> rfl

variable {d : Disk} {path file text : String} {r r' r₁ : Route}

/-- The path ends with a name in a directory, which is not a directory itself. -/
structure Opens (d : Disk) (path : String) (r : Route) (file : String) : Prop where
  reached : ∃ ns, names path = ns ++ [file] ∧ d.follow (d.base path) ns = .directory r
  isName : IsName file
  plain : d.directories.contains (r ++ [file]) = false

/-- The path leads to a file with a text. -/
structure Holds (d : Disk) (path : String) (r : Route) (file text : String) : Prop extends Opens d path r file where
  contents : d.text? (r ++ [file]) = some text

theorem Opens.locate (h : d.Opens path r file) : d.locate path = match d.text? (r ++ [file]) with
    | some text => .file (r ++ [file]) text
    | none => if file.utf8ByteSize ≤ longestName then .free (r ++ [file]) else .blocked := by
  obtain ⟨⟨ns, hnames, hreached⟩, hname, hplain⟩ := h
  have hstep : d.locate path = d.step r file := by
    rw [Disk.locate, hnames, follow_append, hreached]
    exact d.follow_singleton r file
  rw [hstep, step, if_neg hname.stays, if_neg hname.descends, hplain]
  rfl

/-! ## Reading and writing -/

theorem read_apply (path : String) (d : Disk) : read path d = (match d.locate path with
    | .file _ text => some text
    | _ => none, d) := by
  have hread : read path d = (match d.locate path with
    | .file _ text => (pure (some text) : StateM Disk (Option String))
    | _ => pure none) d := rfl
  rw [hread]
  cases d.locate path <;> rfl

/-- Where a file can be written. -/
def slot? : Place → Option Route
  | .file r _ | .free r => some r
  | _ => none

theorem write_apply (path text : String) (d : Disk) : write path text d = match slot? (d.locate path) with
    | some r => (true, d.put r text)
    | none => (false, d) := by
  have hwrite : write path text d = (match d.locate path with
    | .file r _ | .free r => (do set (d.put r text); pure true : StateM Disk Bool)
    | _ => pure false) d := rfl
  rw [hwrite]
  cases d.locate path <;> rfl

theorem eq_of_write_false {d' : Disk} (h : write path text d = (false, d')) : d' = d := by
  rw [write_apply] at h
  split at h
  · cases h
  · exact (Prod.mk.inj h).2.symm

theorem Holds.read (h : d.Holds path r file text) : (Disk.read path d).1 = some text := by
  rw [read_apply, h.locate, h.contents]

theorem text?_put_of_ne (d : Disk) (text : String) (h : r ≠ r') : (d.put r' text).text? r = d.text? r := by
  have hother : (r' == r) = false := beq_eq_false_iff_ne.mpr h.symm
  rw [text?, put, List.find?_cons, hother, List.find?_filter]
  refine congrArg (Option.map Prod.snd) (congrArg (List.find? · d.files) (funext fun f => ?_))
  by_cases hf : f.1 = r
  · simp only [hf, h, beq_self_eq_true, ne_eq, not_false_eq_true, decide_true, and_self]
  · simp only [beq_eq_false_iff_ne.mpr hf, Bool.false_eq_true, and_false, decide_false]

/-- No file is a directory on a path. -/
theorem step_put {name : String} (r' : Route) (text : String) (h : d.step r name = .directory r₁) :
    (d.put r' text).step r name = .directory r₁ := by
  unfold step at h ⊢
  dsimp only at h ⊢
  split at h
  · rwa [if_pos ‹_›]
  · rw [if_neg ‹_›]
    split at h
    · rwa [if_pos ‹_›]
    · rw [if_neg ‹_›]
      split at h
      · rwa [if_pos ‹_›]
      · split at h
        · cases h
        · split at h <;> cases h

theorem follow_put (r' : Route) (text : String) : ∀ {ns : List String} {r r₁ : Route}, d.follow r ns = .directory r₁ →
    (d.put r' text).follow r ns = .directory r₁
  | [], _, _, h => h
  | n :: ns, r, r₁, h => by
    rw [follow] at h ⊢
    cases hstep : d.step r n with
    | directory next =>
      rw [hstep] at h
      rw [step_put r' text hstep]
      exact follow_put r' text h
    | file next text =>
      rw [hstep] at h
      dsimp only at h
      split at h <;> cases h
    | free next =>
      rw [hstep] at h
      dsimp only at h
      split at h <;> cases h
    | missing | blocked =>
      rw [hstep] at h
      cases h

theorem Opens.put (h : d.Opens path r file) (r' : Route) (text : String) : (d.put r' text).Opens path r file := by
  obtain ⟨⟨ns, hnames, hreached⟩, hname, hplain⟩ := h
  exact ⟨⟨ns, hnames, follow_put r' text hreached⟩, hname, hplain⟩

/-- A file stays as it is when one with another name is written. -/
theorem Holds.put (h : d.Holds path r file text) {name : String} (hne : file ≠ name) (r' : Route) (other : String) :
    (d.put (r' ++ [name]) other).Holds path r file text := by
  refine ⟨h.toOpens.put _ _, ?_⟩
  rw [text?_put_of_ne, h.contents]
  intro heq
  obtain ⟨-, hlast⟩ := List.append_inj' heq rfl
  exact hne (List.cons.inj hlast).1

/-- A file can be written under a name in a directory that is there. -/
theorem exists_of_slot? {ns : List String} (hnames : names path = ns ++ [file]) (hfile : IsName file)
    (h : slot? (d.locate path) = some r₁) : ∃ r, r₁ = r ++ [file] ∧ d.Opens path r file := by
  rw [locate, hnames, follow_append] at h
  cases hreached : d.follow (d.base path) ns with
  | directory r =>
    rw [hreached] at h
    dsimp only at h
    rw [follow_singleton, step, if_neg hfile.stays, if_neg hfile.descends] at h
    cases hplain : d.directories.contains (r ++ [file]) with
    | true =>
      rw [if_pos hplain] at h
      cases h
    | false =>
      refine ⟨r, ?_, ⟨ns, hnames, hreached⟩, hfile, hplain⟩
      rw [if_neg (Bool.eq_false_iff.mp hplain)] at h
      split at h
      · exact (Option.some.inj h).symm
      · split at h
        · exact (Option.some.inj h).symm
        · cases h
  | file r text =>
    rw [hreached] at h
    cases h
  | free r =>
    have hnotempty : (file == "") = false := beq_eq_false_iff_ne.mpr (not_or.mp hfile.stays).1
    rw [hreached] at h
    dsimp only at h
    rw [List.all_cons, hnotempty, Bool.false_and] at h
    cases h
  | missing | blocked =>
    rw [hreached] at h
    cases h

/-- What is written under a name in a directory is there. -/
theorem exists_of_write {directory : String} {d' : Disk} (hfile : IsName file)
    (h : write (CommandLine.joinPath directory file) text d = (true, d')) :
    ∃ r, d' = d.put (r ++ [file]) text ∧ d'.Holds (CommandLine.joinPath directory file) r file text := by
  obtain ⟨ns, hnames⟩ := exists_names_joinPath directory hfile
  rw [write_apply] at h
  split at h
  · rename_i place hslot
    cases h
    obtain ⟨r, rfl, hopens⟩ := exists_of_slot? hnames hfile hslot
    exact ⟨r, rfl, hopens.put _ _, text?_put d _ _⟩
  · cases h

end Disk

/-! ## Deliveries -/

namespace Delivery

open Disk (IsName)

theorem stateM_bind_apply {σ α β : Type} (x : StateM σ α) (k : α → StateM σ β) (s : σ) :
    (x >>= k) s = k (x s).1 (x s).2 := rfl

/-- Files are written up to the first one that is refused. -/
theorem writeFiles_cons (d : Delivery) (a : Artifact) (files : List Artifact) (o : Outcome) (disk : Disk) :
    d.writeFiles Disk.access (a :: files) o disk =
      let path := CommandLine.joinPath d.directory a.fileName
      let written := if d.announced then o.report (CommandLine.reporter ++ "wrote " ++ path) else o
      match Disk.write path a.contents disk with
      | (true, disk) => d.writeFiles Disk.access files written disk
      | (false, disk) => (o.refused path, disk) := by
  have hwrite : Disk.access.write = Disk.write := rfl
  rw [writeFiles, stateM_bind_apply, hwrite]
  dsimp only
  rcases Disk.write (CommandLine.joinPath d.directory a.fileName) a.contents disk with ⟨_ | _, disk⟩ <;> rfl

theorem carryOut_apply (d : Delivery) (o : Outcome) (disk : Disk) : d.carryOut Disk.access o disk =
    match Disk.access.makeDirectory d.directory disk with
    | (true, disk) => d.writeFiles Disk.access d.files o disk
    | (false, disk) => (o.refused d.directory, disk) := by
  rw [carryOut, stateM_bind_apply]
  rcases Disk.access.makeDirectory d.directory disk with ⟨_ | _, disk⟩ <;> rfl

/-- A file stays while others are written under other names. -/
theorem holds_writeFiles {d : Delivery} {path file text : String} {r : Route} : ∀ {files : List Artifact} {o : Outcome}
    {disk : Disk}, disk.Holds path r file text → (∀ a ∈ files, IsName a.fileName) →
      file ∉ files.map Artifact.fileName → (d.writeFiles Disk.access files o disk).2.Holds path r file text
  | [], _, _, h, _, _ => h
  | a :: files, o, disk, h, hnames, hfile => by
    obtain ⟨ha, hnames⟩ := List.forall_mem_cons.mp hnames
    rw [List.map_cons, List.mem_cons, not_or] at hfile
    rw [writeFiles_cons]
    dsimp only
    split
    · rename_i disk' hwrite
      obtain ⟨r', rfl, -⟩ := Disk.exists_of_write ha hwrite
      exact holds_writeFiles (h.put hfile.1 r' a.contents) hnames hfile.2
    · rename_i disk' hwrite
      rwa [Disk.eq_of_write_false hwrite]

/-- If no file is refused, each one can be read, unless a later one has the same name. -/
theorem read_of_writeFiles {d : Delivery} : ∀ {files : List Artifact} {o : Outcome} {disk : Disk},
    (∀ a ∈ files, IsName a.fileName) → (d.writeFiles Disk.access files o disk).1.status = 0 →
      ∀ before a after, files = before ++ a :: after → a.fileName ∉ after.map Artifact.fileName →
        (Disk.read (CommandLine.joinPath d.directory a.fileName) (d.writeFiles Disk.access files o disk).2).1 =
          some a.contents
  | [], _, _, _, _, before, a, after, heq, _ => by
    cases before <;> cases heq
  | file :: files, o, disk, hnames, hstatus, before, a, after, heq, hlast => by
    obtain ⟨hfile, hnames⟩ := List.forall_mem_cons.mp hnames
    rw [writeFiles_cons] at hstatus ⊢
    dsimp only at hstatus ⊢
    split
    · rename_i disk' hwrite
      rw [hwrite] at hstatus
      cases before with
      | nil =>
        obtain ⟨rfl, rfl⟩ := List.cons.inj heq
        obtain ⟨r, -, hholds⟩ := Disk.exists_of_write hfile hwrite
        exact (holds_writeFiles hholds hnames hlast).read
      | cons first before =>
        obtain ⟨rfl, rfl⟩ := List.cons.inj heq
        exact read_of_writeFiles hnames hstatus before a after rfl hlast
    · rename_i disk' hwrite
      rw [hwrite] at hstatus
      cases hstatus

/-- A delivery that is not refused leaves each of its files, unless a later one has the same name. -/
theorem read_of_carryOut {d : Delivery} {o : Outcome} {disk : Disk} (hnames : ∀ a ∈ d.files, IsName a.fileName)
    (hstatus : (d.carryOut Disk.access o disk).1.status = 0) {before after : List Artifact} {a : Artifact}
    (hfiles : d.files = before ++ a :: after) (hlast : a.fileName ∉ after.map Artifact.fileName) :
    (Disk.read (CommandLine.joinPath d.directory a.fileName) (d.carryOut Disk.access o disk).2).1 =
      some a.contents := by
  rw [carryOut_apply] at hstatus ⊢
  split
  · rename_i disk' hmake
    rw [hmake] at hstatus
    exact read_of_writeFiles hnames hstatus before a after hfiles hlast
  · rename_i disk' hmake
    rw [hmake] at hstatus
    cases hstatus

end Delivery

end TestProgram
