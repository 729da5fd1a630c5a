import GrammarLayout.Run.Batch

/-!
# The turn of a file

A run handles files one after the other, and everything it does to the workspace it does in the
turn of some file. So what a single turn can do is said once (`Turn`), with everything that it
finds, tells and leaves; a run is then cut at the turn of a file, whatever comes before and after
(`runFiles_append`, `runFiles_turn`).

Writing replaces bytes of a file that was read before. It makes no file and no directory
(`Workspace.SameNames`), so a path leads to the same place in every turn of a run, and what could
not be read at first cannot be read later.
-/

namespace GrammarLayout

namespace Workspace

/-! ### Workspaces with the same names -/

/-- A workspace with the directories and the files of another one, whatever is in the files. -/
structure SameNames (w v : Workspace) : Prop where
  /-- Relative paths start from the same directory. -/
  here : v.here = w.here
  /-- The directories are the same. -/
  directories : v.directories = w.directories
  /-- There are files at the same locations. -/
  files : ∀ l, (v.file? l).isSome = (w.file? l).isSome

namespace SameNames

variable {w v u : Workspace}

theorem refl (w : Workspace) : SameNames w w := ⟨rfl, rfl, fun _ => rfl⟩

theorem trans (h : SameNames w v) (h' : SameNames v u) : SameNames w u where
  here := h'.here.trans h.here
  directories := h'.directories.trans h.directories
  files l := (h'.files l).trans (h.files l)

/-- Putting bytes in the place of others keeps the names. -/
theorem put {l : Location} {old : ByteArray} (h : w.file? l = some old) (bytes : ByteArray) :
    SameNames w (w.put l bytes) where
  here := rfl
  directories := rfl
  files k := by
    rw [file?_put]
    split
    case isTrue hk => simp [hk, h]
    case isFalse => rfl

theorem hasDirectory (h : SameNames w v) (l : Location) : v.hasDirectory l = w.hasDirectory l := by
  simp [Workspace.hasDirectory, h.directories]

theorem follow (h : SameNames w v) (l : Location) (names : List String) :
    v.follow l names = w.follow l names := by
  induction names generalizing l with
  | nil => rfl
  | cons name names ih => simp only [Workspace.follow, h.hasDirectory, h.files, ih]

/-- A path leads to the same place. -/
theorem locate (h : SameNames w v) (path : String) : v.locate path = w.locate path := by
  simp only [Workspace.locate, h.here, h.follow]

/-- What is read depends on the bytes at the place that the path leads to. -/
theorem read (h : SameNames w v) {path : String}
    (hfile : ∀ l, w.locate path = .ok l → v.file? l = w.file? l) : v.read path = w.read path := by
  unfold Workspace.read
  rw [h.locate]
  cases hl : w.locate path with
  | error fault => rfl
  | ok l => simp only [hfile l hl, h.hasDirectory]

theorem readText (h : SameNames w v) {path : String}
    (hfile : ∀ l, w.locate path = .ok l → v.file? l = w.file? l) :
    v.readText path = w.readText path := by
  rw [Workspace.readText, h.read hfile, Workspace.readText]

end SameNames

/-! ### Reading and writing -/

theorem toUTF8_of_textOf {bytes : ByteArray} {text : String} (h : textOf bytes = .ok text) :
    bytes = text.toUTF8 := by
  unfold textOf String.fromUTF8? at h
  split at h
  case h_1 heq =>
    split at heq
    · cases heq
      cases h
      rfl
    · cases heq
  case h_2 => cases h

/-- A text that is read is what a file holds. -/
theorem file?_of_readText {w : Workspace} {path source : String}
    (h : w.readText path = .ok source) :
    ∃ l, w.locate path = .ok l ∧ w.file? l = some source.toUTF8 := by
  unfold readText read at h
  cases hl : w.locate path with
  | error fault => simp [hl, Except.bind] at h
  | ok l =>
    cases hf : w.file? l with
    | none => simp [hl, hf, Except.bind] at h
    | some bytes =>
      have htext : textOf bytes = .ok source := by simpa [hl, hf, Except.bind] using h
      exact ⟨l, rfl, hf ▸ congrArg some (toUTF8_of_textOf htext)⟩

theorem write_of_locate {w : Workspace} {path : String} {l : Location}
    (h : w.locate path = .ok l) (text : String) : w.write path text = w.put l text.toUTF8 := by
  simp [write, h]

/-- Paths that lead to no directory stand for themselves. -/
theorem collect_of_not_directory {w : Workspace} {paths : List String}
    (h : ∀ path ∈ paths, w.isDirectory path = false) : w.collect paths = paths := by
  induction paths with
  | nil => rfl
  | cons path paths ih =>
    have hpath : w.isDirectory path = false := h path (by simp)
    have hothers := ih fun p hp => h p (List.mem_cons_of_mem path hp)
    unfold collect at hothers ⊢
    rw [List.flatMap_cons, hothers]
    unfold isDirectory at hpath
    cases hl : w.locate path <;> simp_all

end Workspace

/-! ### One file -/

/-- **What the turn of a file comes to**: `w` are the files when the turn begins, `r` is the report
about the file, and `later` are the files when the turn is over. -/
structure Turn (rules : Rules) (mode : Mode) (w : Workspace) (path : String) (r : FileReport)
    (later : Workspace) : Prop where
  /-- The report is about the file. -/
  path_eq : r.path = path
  /-- A file without a text is reported, and no other one is reported so. -/
  unreadable : ∀ fault, r.obstacle = some (.unreadable fault) ↔ w.readText path = .error fault
  /-- A text without a layout is reported, and no other one is reported so. -/
  unformattable : ∀ error, r.obstacle = some (.unformattable error) ↔
    ∃ source, w.readText path = .ok source ∧ format rules source = .error error
  /-- A text with a layout has changed if the layout is another text. -/
  laidOut : r.obstacle = none → ∃ source f, w.readText path = .ok source ∧
    format rules source = .ok f ∧ r.changed = (f.rendered != source) ∧
    r.diagnostics = f.diagnostics
  /-- What has no layout has not changed and has no diagnostics. -/
  failed : r.obstacle ≠ none → r.changed = false ∧ r.diagnostics = []
  /-- The files stay as they are, unless a changed layout is to be written. -/
  kept : mode ≠ .write ∨ r.changed = false → later = w
  /-- A changed layout takes the place of the text that was read, and nothing else changes. -/
  written : mode = .write → r.changed = true → ∃ l source f, w.locate path = .ok l ∧
    w.file? l = some source.toUTF8 ∧ w.readText path = .ok source ∧
    format rules source = .ok f ∧ later = w.put l f.rendered.toUTF8

section Conclude

variable (mode : Mode) (w : Workspace) (path source : String) (f : Formatted)

/-- The mode decides only whether the layout, or what it changes, is in the report. -/
theorem exists_report_conclude : ∃ diff rendered, (conclude mode w path source f).report =
    { path, changed := f.rendered != source, diagnostics := f.diagnostics, diff, rendered } := by
  unfold conclude
  cases f.rendered != source <;> cases mode <;> exact ⟨_, _, rfl⟩

theorem conclude_workspace : (conclude mode w path source f).workspace =
    if mode = .write ∧ (f.rendered != source) then w.write path f.rendered else w := by
  unfold conclude
  cases f.rendered != source <;> cases mode <;> rfl

end Conclude

theorem runFile_of_format {rules : Rules} {mode : Mode} {w : Workspace} {path source : String}
    {f : Formatted} (hread : w.readText path = .ok source) (hformat : format rules source = .ok f) :
    runFile rules mode w path = conclude mode w path source f := by
  simp [runFile, hread, hformat]

/-- **A run over one file is a turn.** -/
theorem turn_runFile (rules : Rules) (mode : Mode) (w : Workspace) (path : String) :
    Turn rules mode w path (runFile rules mode w path).report
      (runFile rules mode w path).workspace := by
  cases hread : w.readText path with
  | error fault => constructor <;> simp [runFile, hread]
  | ok source =>
    cases hformat : format rules source with
    | error error => constructor <;> simp [runFile, hread, hformat]
    | ok f =>
      obtain ⟨diff, rendered, hreport⟩ := exists_report_conclude mode w path source f
      rw [runFile_of_format hread hformat, hreport]
      constructor
      case kept => grind [conclude_workspace]
      case written =>
        intro hmode hchanged
        obtain ⟨l, hl, hfile⟩ := Workspace.file?_of_readText hread
        refine ⟨l, source, f, hl, hfile, hread, hformat, ?_⟩
        rw [conclude_workspace, if_pos ⟨hmode, hchanged⟩, Workspace.write_of_locate hl]
      all_goals simp [hread, hformat]

namespace Turn

variable {rules : Rules} {mode : Mode} {w later : Workspace} {path : String} {r : FileReport}

/-- A turn makes no file and no directory. -/
theorem sameNames (t : Turn rules mode w path r later) : w.SameNames later := by
  by_cases h : mode = .write ∧ r.changed = true
  case pos =>
    obtain ⟨l, source, f, -, hfile, -, -, rfl⟩ := t.written h.1 h.2
    exact .put hfile _
  case neg =>
    have hkept : later = w := t.kept (by grind)
    exact hkept ▸ .refl w

/-- A turn leaves every file alone but the one that a changed report is about. -/
theorem file?_eq (t : Turn rules mode w path r later) {l : Location}
    (h : r.changed = true → w.locate path ≠ .ok l) : later.file? l = w.file? l := by
  by_cases hc : mode = .write ∧ r.changed = true
  case pos =>
    obtain ⟨k, source, f, hk, -, -, -, rfl⟩ := t.written hc.1 hc.2
    have hlk : l ≠ k := fun heq => h hc.2 (heq ▸ hk)
    rw [Workspace.file?_put, if_neg hlk]
  case neg => rw [t.kept (by grind)]

/-- A changed layout is seen in the files: other bytes stand in place of those that were read. -/
theorem file?_ne (t : Turn rules .write w path r later) (hc : r.changed = true) :
    ∃ l, w.locate path = .ok l ∧ later.file? l ≠ w.file? l := by
  obtain ⟨l, source, f, hl, hfile, hread, hformat, rfl⟩ := t.written rfl hc
  have hnone : r.obstacle = none := by
    refine Decidable.byContradiction fun hsome => ?_
    simp [(t.failed hsome).1] at hc
  obtain ⟨source', f', hread', hformat', hchanged, -⟩ := t.laidOut hnone
  cases hread.symm.trans hread'
  cases hformat.symm.trans hformat'
  have hne : f.rendered ≠ source := by simpa [hc] using hchanged
  refine ⟨l, hl, fun heq => hne ?_⟩
  rw [Workspace.file?_put, if_pos rfl, hfile] at heq
  exact String.toByteArray_inj.1 (by simpa using heq)

end Turn

/-! ### Many files -/

/-- A run over paths that lead to no directory handles those paths. -/
theorem runPaths_of_not_directory {rules : Rules} {mode : Mode} {w : Workspace}
    {paths : List String} (h : ∀ path ∈ paths, w.isDirectory path = false) :
    runPaths rules mode w paths = runFiles rules mode w paths := by
  rw [runPaths, Workspace.collect_of_not_directory h]

section Runs

variable (rules : Rules) (mode : Mode) (w : Workspace)

/-- A run over some files and then others is a run over those, and over the others as it leaves
them. -/
theorem runFiles_append (paths others : List String) :
    (runFiles rules mode w (paths ++ others)).reports = (runFiles rules mode w paths).reports ++
      (runFiles rules mode (runFiles rules mode w paths).workspace others).reports ∧
    (runFiles rules mode w (paths ++ others)).workspace =
      (runFiles rules mode (runFiles rules mode w paths).workspace others).workspace := by
  induction paths generalizing w with
  | nil => exact ⟨rfl, rfl⟩
  | cons path paths ih =>
    have h := ih (runFile rules mode w path).workspace
    exact ⟨by simp [runFiles, h.1], by simp [runFiles, h.2]⟩

/-- A run tells of every file, in their order. -/
theorem runFiles_paths (paths : List String) :
    (runFiles rules mode w paths).reports.map (·.path) = paths := by
  induction paths generalizing w with
  | nil => rfl
  | cons path paths ih => simp [runFiles, (turn_runFile rules mode w path).path_eq, ih]

theorem length_reports (paths : List String) :
    (runFiles rules mode w paths).reports.length = paths.length := by
  simpa using congrArg List.length (runFiles_paths rules mode w paths)

/-- **Every file has its turn**, with the files as the ones before it have left them. -/
theorem runFiles_turn (pre : List String) (path : String) (post : List String) :
    ∃ r, (runFiles rules mode w (pre ++ path :: post)).reports[pre.length]? = some r ∧
      Turn rules mode (runFiles rules mode w pre).workspace path r
        (runFiles rules mode w (pre ++ [path])).workspace := by
  refine ⟨(runFile rules mode (runFiles rules mode w pre).workspace path).report, ?_, ?_⟩
  · rw [(runFiles_append rules mode w pre _).1,
      List.getElem?_append_right (by simp [length_reports])]
    simp [length_reports, runFiles]
  · rw [(runFiles_append rules mode w pre _).2]
    exact turn_runFile rules mode _ path

/-- A run makes no file and no directory. -/
theorem sameNames_runFiles (paths : List String) :
    w.SameNames (runFiles rules mode w paths).workspace := by
  induction paths generalizing w with
  | nil => exact .refl w
  | cons path paths ih => exact (turn_runFile rules mode w path).sameNames.trans (ih _)

/-- A run leaves every file alone that no changed report is about. -/
theorem file?_runFiles {paths : List String} {l : Location}
    (h : ∀ r ∈ (runFiles rules mode w paths).reports, r.changed = true → w.locate r.path ≠ .ok l) :
    (runFiles rules mode w paths).workspace.file? l = w.file? l := by
  induction paths generalizing w with
  | nil => rfl
  | cons path paths ih =>
    have t := turn_runFile rules mode w path
    have hfirst : (runFile rules mode w path).workspace.file? l = w.file? l :=
      t.file?_eq fun hc => t.path_eq ▸ h _ (by simp [runFiles]) hc
    refine (ih _ fun r hr hc => ?_).trans hfirst
    rw [t.sameNames.locate]
    exact h r (by simp [runFiles, hr]) hc

/-- A run that writes nothing leaves the files as they are. -/
theorem workspace_runFiles {paths : List String}
    (h : mode ≠ .write ∨ ∀ r ∈ (runFiles rules mode w paths).reports, r.changed = false) :
    (runFiles rules mode w paths).workspace = w := by
  induction paths generalizing w with
  | nil => rfl
  | cons path paths ih =>
    have hfirst : (runFile rules mode w path).workspace = w :=
      (turn_runFile rules mode w path).kept (h.imp_right fun h => h _ (by simp [runFiles]))
    have hothers := ih w (h.imp_right fun h r hr => h r (by simp [runFiles, hfirst, hr]))
    simp [runFiles, hfirst, hothers]

end Runs

/-! ### Counts -/

/-- The counts over reports. -/
def Summary.over (files : List FileReport) : Summary where
  seen := files.length
  changed := files.countP (·.changed)
  failed := files.countP (·.obstacle.isSome)
  warnings := (files.flatMap (·.diagnostics)).length
  withWarnings := files.countP (!·.diagnostics.isEmpty)

/-- What is counted so far is added to the counts over the files that are left. -/
theorem foldl_add (files : List FileReport) (s : Summary) : files.foldl Summary.add s =
    { seen := s.seen + (Summary.over files).seen
      changed := s.changed + (Summary.over files).changed
      failed := s.failed + (Summary.over files).failed
      warnings := s.warnings + (Summary.over files).warnings
      withWarnings := s.withWarnings + (Summary.over files).withWarnings } := by
  induction files generalizing s with
  | nil => simp [Summary.over]
  | cons r files ih =>
    have hone : ∀ b : Bool, b.toNat = if b then 1 else 0 := by decide
    rw [List.foldl_cons, ih]
    simp only [Summary.add, Summary.over, List.length_cons, List.countP_cons, List.flatMap_cons,
      List.length_append, hone, Summary.mk.injEq]
    omega

/-- **The summary of a run counts over its reports.** -/
theorem summary_ofFiles (files : List FileReport) :
    (Report.ofFiles files).summary = Summary.over files := by
  simp [Report.ofFiles, foldl_add]

end GrammarLayout
