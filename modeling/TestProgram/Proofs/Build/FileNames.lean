import Mathlib.Data.List.Nodup
import TestProgram.Build.Basic
import TestProgram.Proofs.Run.Names

/-!
# Names of generated files

The name of a file tells a pattern from a flow or a sheet by its ending, but for two endings that are alike: a
listing of a pattern ends like a table of a flow, and sheets are tables. So the files of a build have different
names, unless patterns, flows and sheets are all written and two of them that end alike share their name
(`Build.nodup_fileNames`).
-/

namespace TestProgram

/-! ## Endings -/

theorem Platform.fileName_injective (p : Platform) : p.fileName.Injective := fun _ _ h =>
  (String.append_left_inj _).mp ((String.append_left_inj _).mp h)

theorem FlowFormat.fileName_injective (format : FlowFormat) : format.fileName.Injective := fun _ _ h => by
  cases format <;> exact (String.append_left_inj _).mp h

/-- The last character of a name tells how it ends. -/
theorem getLast?_append {s ending : String} {c : Char} (h : ending.toList.getLast? = some c) :
    (s ++ ending).toList.getLast? = some c := by
  rw [String.toList_append, List.getLast?_append, h, Option.some_or]

theorem Platform.getLast?_fileName (p : Platform) (n : String) :
    (p.fileName n).toList.getLast? = p.extension.toList.getLast? := by
  cases p <;> exact getLast?_append rfl

def FlowFormat.lastChar : FlowFormat → Char
  | tabular => 't'
  | yaml => 'l'

theorem FlowFormat.getLast?_fileName (format : FlowFormat) (n : String) :
    (format.fileName n).toList.getLast? = some format.lastChar := by
  cases format <;> exact getLast?_append rfl

theorem FlowFormat.fileName_eq_iff (format : FlowFormat) {n m : String} :
    format.fileName n = FlowFormat.tabular.fileName m ↔ format = .tabular ∧ n = m := by
  refine ⟨fun h => ?_, fun ⟨hformat, hname⟩ => hformat ▸ hname ▸ rfl⟩
  have hlast := congrArg (fun s => s.toList.getLast?) h
  rw [getLast?_fileName, getLast?_fileName] at hlast
  cases format with
  | tabular => exact ⟨rfl, fileName_injective _ h⟩
  | yaml => exact absurd hlast (by decide)

/-- A pattern and a flow have files of one name only if that is the name of both, and if they end alike. -/
theorem Platform.fileName_eq_iff (p : Platform) (format : FlowFormat) {n m : String} :
    p.fileName n = format.fileName m ↔ (p = .doc ∧ format = .tabular) ∧ n = m := by
  have hdoc : Platform.doc.fileName n = FlowFormat.tabular.fileName n := by
    rw [fileName, FlowFormat.fileName, String.append_assoc]
    rfl
  refine ⟨fun h => ?_, fun ⟨⟨hp, hformat⟩, hname⟩ => hp ▸ hformat ▸ hname ▸ hdoc⟩
  have hlast := congrArg (fun s => s.toList.getLast?) h
  rw [getLast?_fileName, FlowFormat.getLast?_fileName] at hlast
  have halike : p = .doc ∧ format = .tabular := by
    cases p <;> cases format <;> first | exact ⟨rfl, rfl⟩ | exact absurd hlast (by decide)
  obtain ⟨rfl, rfl⟩ := halike
  exact ⟨⟨rfl, rfl⟩, FlowFormat.fileName_injective _ (hdoc.symm.trans h)⟩

/-! ## Products -/

namespace Product

variable {P : String → Prop} {p : Product} {platform : Platform} {format : FlowFormat}

/-- The names of the sheets that are not empty. -/
def sheetNames (p : Product) : List String :=
  (if p.instances.entries.isEmpty then [] else [p.instances.name])
    ++ if p.patternSets.entries.isEmpty then [] else [p.patternSets.name]

/-- No two parts of a product share a name where their files end alike. -/
structure Apart (p : Product) (platform : Platform) (format : FlowFormat) : Prop where
  patternsFlows : platform = .doc ∧ format = .tabular → ∀ n ∈ p.patterns.map Pattern.name, n ∉ p.flows.map Flow.name
  patternsSheets : platform = .doc → ∀ n ∈ p.patterns.map Pattern.name, n ∉ p.sheetNames
  flowsSheets : format = .tabular → ∀ n ∈ p.flows.map Flow.name, n ∉ p.sheetNames

theorem Named.sheetNames (h : p.Named P) : p.sheetNames.Sublist ["instances", "patsets"] := by
  rw [Product.sheetNames, h.instances, h.patternSets]
  have hone (c : Bool) (n : String) : (if c then [] else [n]).Sublist [n] := by
    cases c
    · exact List.Sublist.refl _
    · exact List.nil_sublist _
  exact (hone _ "instances").append (hone _ "patsets")

/-- The names of the files of patterns. -/
def patternFiles (p : Product) (platform : Platform) : List String :=
  (p.patterns.map Pattern.name).map platform.fileName

def flowFiles (p : Product) (format : FlowFormat) : List String :=
  (p.flows.map Flow.name).map format.fileName

def sheetFiles (p : Product) : List String := p.sheetNames.map FlowFormat.tabular.fileName

theorem Named.nodup_patternFiles (h : p.Named P) : (p.patternFiles platform).Nodup :=
  h.patterns.map platform.fileName_injective

theorem Named.nodup_flowFiles (h : p.Named P) : (p.flowFiles format).Nodup := h.flows.map format.fileName_injective

theorem Named.nodup_sheetFiles (h : p.Named P) : p.sheetFiles.Nodup :=
  (h.sheetNames.nodup (by decide)).map (FlowFormat.fileName_injective _)

theorem forall_ne_iff (names names' : List String) {g g' : String → String} {alike : Prop}
    (hg : ∀ {n m}, g n = g' m ↔ alike ∧ n = m) :
    (∀ a ∈ names.map g, ∀ b ∈ names'.map g', a ≠ b) ↔ (alike → ∀ n ∈ names, n ∉ names') := by
  refine ⟨fun h halike n hn hn' => ?_, fun h a ha b hb heq => ?_⟩
  · exact h _ (List.mem_map_of_mem hn) _ (List.mem_map_of_mem hn') (hg.mpr ⟨halike, rfl⟩)
  · obtain ⟨n, hn, rfl⟩ := List.mem_map.mp ha
    obtain ⟨m, hm, rfl⟩ := List.mem_map.mp hb
    obtain ⟨halike, rfl⟩ := hg.mp heq
    exact h halike n hn hm

/-- The files of a whole product have different names exactly if its parts are apart. -/
theorem Named.nodup_files (h : p.Named P) :
    (p.patternFiles platform ++ p.flowFiles format ++ p.sheetFiles).Nodup ↔ p.Apart platform format := by
  have hsheets {n m : String} : platform.fileName n = FlowFormat.tabular.fileName m ↔ platform = .doc ∧ n = m := by
    rw [Platform.fileName_eq_iff, and_iff_left rfl]
  have hflows := forall_ne_iff (p.patterns.map Pattern.name) (p.flows.map Flow.name) (platform.fileName_eq_iff format)
  have hpatternsSheets := forall_ne_iff (p.patterns.map Pattern.name) p.sheetNames hsheets
  have hflowsSheets := forall_ne_iff (p.flows.map Flow.name) p.sheetNames format.fileName_eq_iff
  rw [List.nodup_append, List.nodup_append, List.forall_mem_append]
  refine ⟨fun ⟨⟨_, _, hpf⟩, _, hps, hfs⟩ => ?_, fun hapart => ?_⟩
  · exact ⟨hflows.mp hpf, hpatternsSheets.mp hps, hflowsSheets.mp hfs⟩
  · exact ⟨⟨h.nodup_patternFiles, h.nodup_flowFiles, hflows.mpr hapart.patternsFlows⟩, h.nodup_sheetFiles,
      hpatternsSheets.mpr hapart.patternsSheets, hflowsSheets.mpr hapart.flowsSheets⟩

end Product

/-! ## Builds -/

/-- The format in which flows are written. -/
def BuildOptions.format (o : BuildOptions) : FlowFormat := o.flowFormat.getD o.config.platform.flowFormat

namespace Build

theorem fileName_of_patternFile {o : BuildOptions} {header : List String} {p : Pattern} {a : Artifact}
    (h : patternFile o header p = .ok a) : a.fileName = o.config.platform.fileName p.name := by
  unfold patternFile at h
  split at h
  · obtain rfl := Except.ok.inj h
    rfl
  · cases h

/-- What keeps a pattern from being written. -/
def unwritten? : Except Diagnostic Artifact → Option Diagnostic
  | .ok _ => none
  | .error d => some d

/-- If all patterns can be written, each has a file. -/
theorem fileName_patterns (o : BuildOptions) (header : List String) : ∀ {ps : List Pattern},
    (ps.map (patternFile o header)).filterMap unwritten? = [] →
    ((ps.map (patternFile o header)).filterMap Except.toOption).map Artifact.fileName =
      (ps.map Pattern.name).map o.config.platform.fileName
  | [], _ => rfl
  | p :: ps, h => by
    rw [List.map_cons, List.filterMap_cons] at h ⊢
    cases hfile : patternFile o header p with
    | error d =>
      rw [hfile] at h
      cases h
    | ok a =>
      rw [hfile] at h
      rw [List.map_cons, List.map_cons, ← fileName_of_patternFile hfile, ← fileName_patterns o header h]
      rfl

theorem isError_of_unwritten {o : BuildOptions} {header : List String} {ps : List Pattern} {d : Diagnostic}
    (h : d ∈ (ps.map (patternFile o header)).filterMap unwritten?) : d.isError = true := by
  obtain ⟨r, hr, hd⟩ := List.mem_filterMap.mp h
  obtain ⟨p, -, rfl⟩ := List.mem_map.mp hr
  unfold patternFile at hd
  split at hd
  · cases hd
  · obtain rfl := Option.some.inj hd
    rfl

theorem isError_of_files {source : String} {o : BuildOptions} {p : Product} {d : Diagnostic}
    (h : d ∈ (files source o p).2) : d.isError = true := by
  unfold files at h
  dsimp only at h
  split at h
  · exact isError_of_unwritten h
  · cases h

theorem eq_nil_of_settle {stage : Stage} {reports errors : List Diagnostic}
    (h : settle stage (reports ++ errors) = .ok ()) (herrors : ∀ d ∈ errors, d.isError = true) : errors = [] := by
  unfold settle at h
  split at h
  · cases h
  · rename_i hnone
    refine List.eq_nil_iff_forall_not_mem.mpr fun d hd => hnone ?_
    exact List.any_eq_true.mpr ⟨d, List.mem_append_right _ hd, herrors d hd⟩

theorem fileName_sheetFile {α : Type} (header : List String) (s : Sheet α) (text : Sheet α → String) :
    (sheetFile header s text).map Artifact.fileName =
      (if s.entries.isEmpty then [] else [s.name]).map FlowFormat.tabular.fileName := by
  unfold sheetFile
  split <;> rfl

/-- The names of all files, for each choice of what is written. -/
def fileNames (o : BuildOptions) (p : Product) : List String :=
  match o.emit with
  | .all => p.patternFiles o.config.platform ++ p.flowFiles o.format ++ p.sheetFiles
  | .vectors => p.patternFiles o.config.platform
  | .flows => p.flowFiles o.format
  | .sheets => p.sheetFiles
  | .json => [Provenance.generator ++ ".json"]
  | .ast => ["ast.txt"]

theorem map_fileName_parts (patterns flows sheets : List Artifact) {ps fs ss : List String}
    (hpatterns : patterns.map Artifact.fileName = ps) (hflows : flows.map Artifact.fileName = fs)
    (hsheets : sheets.map Artifact.fileName = ss) :
    (patterns ++ flows ++ sheets ++ []).map Artifact.fileName = ps ++ fs ++ ss := by
  rw [List.append_nil, List.map_append, List.map_append, hpatterns, hflows, hsheets]

theorem map_fileName_files {source : String} {o : BuildOptions} {p : Product} (hast : o.emit ≠ .ast)
    (h : (files source o p).2 = []) : (files source o p).1.map Artifact.fileName = fileNames o p := by
  have hflows (header : List String) :
      (p.flows.map (flowFile o header)).map Artifact.fileName = p.flowFiles o.format := by
    rw [Product.flowFiles, List.map_map, List.map_map]
    rfl
  have hsheets (header : List String) : (sheetFile header p.instances TestInstance.sheetText
      ++ sheetFile header p.patternSets PatternSet.sheetText).map Artifact.fileName = p.sheetFiles := by
    rw [List.map_append, fileName_sheetFile, fileName_sheetFile, ← List.map_append]
    rfl
  obtain ⟨config, format, emit⟩ := o
  cases emit with
  | all => exact map_fileName_parts _ _ _ (fileName_patterns _ _ h) (hflows _) (hsheets _)
  | vectors =>
    exact (map_fileName_parts _ [] [] (fileName_patterns _ _ h) rfl rfl).trans
      ((List.append_nil _).trans (List.append_nil _))
  | flows => exact (map_fileName_parts [] _ [] rfl (hflows _) rfl).trans (List.append_nil _)
  | sheets => exact map_fileName_parts [] [] _ rfl rfl (hsheets _)
  | json => rfl
  | ast => exact absurd rfl hast

/-- The files of a build are those that its script calls for. -/
theorem exists_fileNames {source : String} {o : BuildOptions} {b : Build} (h : ofSource source o = .ok b) :
    ∃ s, Script.ofSource source = .ok s ∧ b.artifacts.map Artifact.fileName = fileNames o (s.run o.config).1 := by
  unfold ofSource at h
  split at h
  · cases h
  · rename_i s hs
    refine ⟨s, hs, ?_⟩
    split at h
    · rename_i hast
      obtain rfl := Except.ok.inj h
      rw [fileNames, hast]
      rfl
    · rename_i hast
      obtain ⟨_, -, h⟩ := bind_eq_ok.mp h
      obtain ⟨_, hsettle, h⟩ := bind_eq_ok.mp h
      obtain rfl := Except.ok.inj h
      exact map_fileName_files hast (eq_nil_of_settle hsettle fun _ => isError_of_files)

/-- The files of a product have different names, unless all parts of it are written and they are not apart. -/
theorem nodup_fileNames {o : BuildOptions} {P : String → Prop} {p : Product} (h : p.Named P) :
    (fileNames o p).Nodup ↔ (o.emit = .all → p.Apart o.config.platform o.format) := by
  unfold fileNames
  cases o.emit with
  | all => exact h.nodup_files.trans ⟨fun hapart _ => hapart, fun hapart => hapart rfl⟩
  | vectors => exact iff_of_true h.nodup_patternFiles nofun
  | flows => exact iff_of_true h.nodup_flowFiles nofun
  | sheets => exact iff_of_true h.nodup_sheetFiles nofun
  | json | ast => exact iff_of_true (List.nodup_singleton _) nofun

end Build

end TestProgram
