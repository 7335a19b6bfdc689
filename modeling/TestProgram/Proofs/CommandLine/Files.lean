import TestProgram.Proofs.Build.FileNames
import TestProgram.Proofs.CommandLine.Writing

/-!
# Files that commands leave

The files of a build have different names, unless all its parts are written and two of them share a name where
files end alike: a pattern and a flow, or one of them and a sheet. A command that succeeds then leaves one file
less, as the later one takes the place of the other; all files but those are there with their contents
(`Build.ofSource_files`). `flowLikeSheet` is a script with a flow that is named like the sheet of instances.
-/

namespace TestProgram

open Disk (IsName)
open Scan (IsWord)

/-! ## Names -/

theorem isName_append {n ending : String} (hn : IsWord n) (hslash : '/' ∉ ending.toList)
    (hlength : 2 < ending.toList.length) : IsName (n ++ ending) := by
  refine Disk.isName_of_length ?_ ?_
  · rw [String.toList_append, List.mem_append, not_or]
    exact ⟨hn.slash, hslash⟩
  · rw [String.toList_append, List.length_append]
    omega

theorem Platform.isName_fileName (p : Platform) {n : String} (hn : IsWord n) : IsName (p.fileName n) := by
  rw [fileName, String.append_assoc]
  cases p <;> exact isName_append hn (by decide) (by decide)

theorem FlowFormat.isName_fileName (format : FlowFormat) {n : String} (hn : IsWord n) : IsName (format.fileName n) := by
  cases format <;> exact isName_append hn (by decide) (by decide)

theorem Product.Named.isName_fileNames {p : Product} (h : p.Named IsWord) (o : BuildOptions) :
    ∀ n ∈ Build.fileNames o p, IsName n := by
  have hpatterns : ∀ n ∈ p.patternFiles o.config.platform, IsName n :=
    List.forall_mem_map.mpr fun n hn => Platform.isName_fileName _ (h.pattern n hn)
  have hflows : ∀ n ∈ p.flowFiles o.format, IsName n :=
    List.forall_mem_map.mpr fun n hn => FlowFormat.isName_fileName _ (h.flow n hn)
  have hsheets : ∀ n ∈ p.sheetFiles, IsName n := by
    have hwords : ∀ n ∈ ["instances", "patsets"], IsWord n := by
      refine List.forall_mem_cons.mpr ⟨?_, List.forall_mem_singleton.mpr ?_⟩
      · exact List.all_eq_true.mp (by decide)
      · exact List.all_eq_true.mp (by decide)
    exact List.forall_mem_map.mpr fun n hn => FlowFormat.isName_fileName _ (hwords n (h.sheetNames.mem hn))
  unfold Build.fileNames
  split
  · exact List.forall_mem_append.mpr ⟨List.forall_mem_append.mpr ⟨hpatterns, hflows⟩, hsheets⟩
  · exact hpatterns
  · exact hflows
  · exact hsheets
  · exact List.forall_mem_singleton.mpr (Disk.isName_of_length (by decide) (by decide))
  · exact List.forall_mem_singleton.mpr (Disk.isName_of_length (by decide) (by decide))

/-! ## Commands -/

namespace CommandLine

variable {args : List String} {c : CommandOptions} {source : String} {disk : Disk}

theorem perform_build (hargs : Command.ofArguments args = .ok (.build c))
    (hread : (Disk.read c.source disk).1 = some source) :
    perform Disk.access args disk = match (build c (some source)).delivery with
      | some d => d.carryOut Disk.access (build c (some source)).outcome disk
      | none => ((build c (some source)).outcome, disk) := by
  have hscript : readScript Disk.access (.build c) disk = (some source, disk) := by
    show Disk.read c.source disk = _
    rw [Disk.read_apply] at hread ⊢
    exact congrArg (·, disk) hread
  rw [perform, hargs]
  dsimp only
  rw [Delivery.stateM_bind_apply, hscript]
  show (match (build c (some source)).delivery with
    | some d => d.carryOut Disk.access (build c (some source)).outcome
    | none => pure (build c (some source)).outcome : StateM Disk Outcome) disk = _
  cases (build c (some source)).delivery <;> rfl

/-- A build that succeeds delivers its files, unless the command is one that cannot be carried out. -/
theorem build_cases {b : Build} (hbuild : Build.ofSource source c.build = .ok b) (hemit : c.build.emit ≠ .ast) :
    (build c (some source)).outcome.status = 2 ∧ (build c (some source)).delivery = none ∨
      (build c (some source)).delivery = some ⟨c.output, b.artifacts, c.verbose⟩ := by
  unfold build
  dsimp only
  by_cases hgroup : c.build.config.group = 0
  · rw [if_pos hgroup]
    exact .inl ⟨rfl, rfl⟩
  · rw [if_neg hgroup, hbuild]
    dsimp only
    rw [if_neg hemit]
    exact .inr rfl

end CommandLine

namespace Build

/-- The files of a build have different names, unless it writes everything and the product has parts that are
named alike. When a command with such a build succeeds, every file is there, unless a later one has its name. -/
theorem ofSource_files {source : String} {o : BuildOptions} {b : Build} (h : ofSource source o = .ok b) :
    ((b.artifacts.map Artifact.fileName).Nodup ↔
      (o.emit = .all → ∀ s, Script.ofSource source = .ok s →
        (s.run o.config).1.Apart o.config.platform o.format)) ∧
    ∀ (args : List String) (c : CommandOptions) (disk : Disk), Command.ofArguments args = .ok (.build c) →
      c.build = o → o.emit ≠ .ast → (Disk.read c.source disk).1 = some source →
      (CommandLine.perform Disk.access args disk).1.status = 0 →
      ∀ before a after, b.artifacts = before ++ a :: after → a.fileName ∉ after.map Artifact.fileName →
        (Disk.read (CommandLine.joinPath c.output a.fileName) (CommandLine.perform Disk.access args disk).2).1 =
          some a.contents := by
  obtain ⟨s, hs, hnames⟩ := exists_fileNames h
  have hnamed : (s.run o.config).1.Named IsWord := s.run_named o.config (Script.isWord_of_ofSource hs)
  refine ⟨?_, fun args c disk hargs hc hemit hread hstatus before a after hfiles hlast => ?_⟩
  · rw [hnames, nodup_fileNames hnamed]
    refine forall_congr' fun _ => ⟨fun hapart s' hs' => ?_, fun hapart => hapart s hs⟩
    obtain rfl := Except.ok.inj (hs.symm.trans hs')
    exact hapart
  · subst hc
    have hall : ∀ a ∈ b.artifacts, IsName a.fileName := fun a ha =>
      hnamed.isName_fileNames c.build _ (hnames ▸ List.mem_map_of_mem ha)
    rw [CommandLine.perform_build hargs hread] at hstatus ⊢
    rcases CommandLine.build_cases h hemit with ⟨hunusable, hdelivery⟩ | hdelivery
    · rw [hdelivery] at hstatus
      exact absurd (hunusable.symm.trans hstatus) (by decide)
    · rw [hdelivery] at hstatus ⊢
      exact Delivery.read_of_carryOut hall hstatus hfiles hlast

def plainOptions : BuildOptions := ⟨.standard .j750, none, .all⟩

/-- A flow and a test instance. -/
def flowAndSheet : String := "flow p \x7b\n\x7d\ninstance a pattern=p\n"

/-- The same with a flow that is named like the sheet of instances. -/
def flowLikeSheet : String := "flow instances \x7b\n\x7d\ninstance a pattern=p\n"

/-- The names of the files of a build, if there is one. -/
def filesOf (source : String) : Option (List String) :=
  (ofSource source plainOptions).toOption.map fun b => b.artifacts.map Artifact.fileName

theorem exists_of_filesOf {source : String} {names : List String} (h : filesOf source = some names) :
    ∃ b, ofSource source plainOptions = .ok b ∧ b.artifacts.map Artifact.fileName = names := by
  unfold filesOf at h
  cases hbuild : ofSource source plainOptions with
  | error e =>
    rw [hbuild] at h
    cases h
  | ok b =>
    rw [hbuild] at h
    exact ⟨b, rfl, Option.some.inj h⟩

/-- A disk with a script in the current directory. -/
def workDisk (source : String) : Disk := ⟨["w"], [["w"]], [(["w", "s"], source)]⟩

theorem flowAndSheet_files : ∃ b, ofSource flowAndSheet plainOptions = .ok b ∧
    b.artifacts.map Artifact.fileName = ["p.txt", "instances.txt"] ∧
    ∃ ended, CommandLine.perform Disk.access ["s", "-o", "out"] (workDisk flowAndSheet) = ended ∧ ended.1.status = 0 ∧
      ∀ a ∈ b.artifacts, (Disk.read (CommandLine.joinPath "out" a.fileName) ended.2).1 = some a.contents := by
  have hfiles : filesOf flowAndSheet = some ["p.txt", "instances.txt"] := by decide +kernel
  obtain ⟨b, hb, hnames⟩ := exists_of_filesOf hfiles
  have hstatus : (CommandLine.perform Disk.access ["s", "-o", "out"] (workDisk flowAndSheet)).1.status = 0 := by
    decide +kernel
  have hread : (Disk.read "s" (workDisk flowAndSheet)).1 = some flowAndSheet := by decide +kernel
  obtain ⟨-, hleft⟩ := ofSource_files hb
  refine ⟨b, hb, hnames, _, rfl, hstatus, fun a ha => ?_⟩
  obtain ⟨before, after, hsplit⟩ := List.append_of_mem ha
  refine hleft _ ⟨"s", "out", plainOptions, false⟩ _ rfl rfl nofun hread hstatus before a after hsplit ?_
  have hnodup : (b.artifacts.map Artifact.fileName).Nodup := by
    rw [hnames]
    decide
  rw [hsplit, List.map_append, List.map_cons] at hnodup
  exact (List.nodup_cons.mp (List.nodup_append.mp hnodup).2.1).1

/-- A build that succeeds can have two files of one name. -/
theorem not_forall_nodup_fileNames : ¬ ∀ (source : String) (o : BuildOptions) (b : Build), ofSource source o = .ok b →
    (b.artifacts.map Artifact.fileName).Nodup := by
  intro h
  have hfiles : filesOf flowLikeSheet = some ["instances.txt", "instances.txt"] := by decide +kernel
  obtain ⟨b, hb, hnames⟩ := exists_of_filesOf hfiles
  have hnodup := h _ _ b hb
  rw [hnames] at hnodup
  exact absurd hnodup (by decide)

end Build

end TestProgram
