import GrammarLayout.Command.Perform
import GrammarLayout.Proofs.Run.Turn

/-!
# A check tells what writing would do

A check reads every file as it is, while a run that writes reads what it has written before when a
path comes twice. So the two can give different reports about the same paths. But they differ only
after a first changed layout, and both tell of that one: as long as every report is clean, the files
are as they were, and the next turn finds the same in both runs (`clean_iff`). Hence a check ends
well exactly if writing would neither fail nor change anything (`Orderly.checking`).

"Changes anything" is meant at every moment of the run. Looking at the files when the run is over
says the same if the paths lead to different files (`Orderly.unchangedAtEnd`); a file that comes
twice could be changed forth and back.
-/

namespace GrammarLayout

/-! ### Clean reports -/

/-- The only error of a layout is that the header cannot be read. -/
theorem exists_unreadable_of_format {rules : Rules} {source : String} {error : FormatError}
    (h : format rules source = .error error) : ∃ d, error = .unreadable d := by
  unfold format at h
  cases hl : layoutSource rules source with
  | ok f => simp [hl] at h
  | error d => exact ⟨d, by simpa [hl] using h.symm⟩

/-- Whether a report tells of a layout that is the text of the file. -/
def FileReport.IsClean (r : FileReport) : Prop := r.obstacle = none ∧ r.changed = false

/-- A run counts no change if no report tells of one. -/
theorem Run.changed_eq_zero (run : Run) :
    run.report.summary.changed = 0 ↔ ∀ r ∈ run.reports, r.changed = false := by
  simp [Run.report, summary_ofFiles, Summary.over, List.countP_eq_zero]

/-- A run counts no failure and no change if every report is clean. -/
theorem Run.forall_isClean (run : Run) : (∀ r ∈ run.reports, r.IsClean) ↔
    run.report.summary.failed = 0 ∧ run.report.summary.changed = 0 := by
  simp [Run.report, summary_ofFiles, Summary.over, List.countP_eq_zero, FileReport.IsClean,
    forall_and]

/-- **What is found in a file does not depend on the mode.** -/
theorem Turn.report_eq {rules : Rules} {mode mode' : Mode} {w later later' : Workspace}
    {path : String} {r r' : FileReport} (t : Turn rules mode w path r later)
    (t' : Turn rules mode' w path r' later') :
    r.obstacle = r'.obstacle ∧ r.changed = r'.changed ∧ r.diagnostics = r'.diagnostics := by
  have hobstacle : r.obstacle = r'.obstacle := by
    apply Option.ext
    rintro (fault | error)
    · rw [t.unreadable, t'.unreadable]
    · rw [t.unformattable, t'.unformattable]
  refine ⟨hobstacle, ?_⟩
  by_cases hnone : r.obstacle = none
  case pos =>
    obtain ⟨source, f, hread, hformat, hchanged, hdiagnostics⟩ := t.laidOut hnone
    obtain ⟨source', f', hread', hformat', hchanged', hdiagnostics'⟩ :=
      t'.laidOut (hobstacle ▸ hnone)
    cases hread.symm.trans hread'
    cases hformat.symm.trans hformat'
    exact ⟨hchanged.trans hchanged'.symm, hdiagnostics.trans hdiagnostics'.symm⟩
  case neg =>
    obtain ⟨hchanged, hdiagnostics⟩ := t.failed hnone
    obtain ⟨hchanged', hdiagnostics'⟩ := t'.failed (hobstacle ▸ hnone)
    exact ⟨hchanged.trans hchanged'.symm, hdiagnostics.trans hdiagnostics'.symm⟩

section Runs

variable {rules : Rules} {w : Workspace} {paths : List String}

/-- **If every report of a run is clean, so is every report of a run in another mode.** Both runs
find the same files up to the first report that is not clean. -/
theorem clean_of_clean {mode mode' : Mode}
    (h : ∀ r ∈ (runFiles rules mode w paths).reports, r.IsClean) :
    ∀ r ∈ (runFiles rules mode' w paths).reports, r.IsClean := by
  induction paths generalizing w with
  | nil => simp [runFiles]
  | cons path paths ih =>
    have t := turn_runFile rules mode w path
    have t' := turn_runFile rules mode' w path
    obtain ⟨hobstacle, hchanged, -⟩ := t.report_eq t'
    have hclean : (runFile rules mode w path).report.IsClean := h _ (by simp [runFiles])
    have hclean' : (runFile rules mode' w path).report.IsClean :=
      ⟨hobstacle ▸ hclean.1, hchanged ▸ hclean.2⟩
    have hkept := t.kept (.inr hclean.2)
    have hkept' := t'.kept (.inr hclean'.2)
    have hothers := ih (w := w) fun r hr => h r (by simp [runFiles, hkept, hr])
    simpa [runFiles, hkept', hclean'] using hothers

theorem clean_iff (mode mode' : Mode) :
    (∀ r ∈ (runFiles rules mode w paths).reports, r.IsClean) ↔
      ∀ r ∈ (runFiles rules mode' w paths).reports, r.IsClean :=
  ⟨clean_of_clean, clean_of_clean⟩

/-- **Nothing is reported as changed if and only if no file is ever another one** while the run
goes on. -/
theorem unchanged_iff : (∀ r ∈ (runFiles rules .write w paths).reports, r.changed = false) ↔
    ∀ n l, (runFiles rules .write w (paths.take n)).workspace.file? l = w.file? l := by
  constructor
  case mp =>
    intro h n l
    have hreports := (runFiles_append rules .write w (paths.take n) (paths.drop n)).1
    rw [List.take_append_drop] at hreports
    rw [workspace_runFiles rules .write w (.inr fun r hr => h r (by simp [hreports, hr]))]
  case mpr =>
    intro h
    induction paths generalizing w with
    | nil => simp [runFiles]
    | cons path paths ih =>
      have t := turn_runFile rules .write w path
      have hfirst : (runFile rules .write w path).report.changed = false := by
        refine Bool.eq_false_iff.2 fun hc => ?_
        obtain ⟨l, -, hne⟩ := t.file?_ne hc
        exact hne (h 1 l)
      have hkept := t.kept (.inr hfirst)
      have hothers := ih (w := w) fun n l => by
        simpa only [List.take_succ_cons, runFiles, hkept] using h (n + 1) l
      simpa [runFiles, hkept, hfirst] using hothers

/-- If paths lead to different files, a change is seen when the run is over. -/
theorem unchanged_of_file?_eq
    (hpaths : paths.Pairwise fun p q => ∀ l, w.locate p = .ok l → w.locate q ≠ .ok l)
    (h : ∀ l, (runFiles rules .write w paths).workspace.file? l = w.file? l) :
    ∀ r ∈ (runFiles rules .write w paths).reports, r.changed = false := by
  induction paths generalizing w with
  | nil => simp [runFiles]
  | cons path paths ih =>
    obtain ⟨helsewhere, hpaths⟩ := List.pairwise_cons.1 hpaths
    have t := turn_runFile rules .write w path
    have hfirst : (runFile rules .write w path).report.changed = false := by
      refine Bool.eq_false_iff.2 fun hc => ?_
      obtain ⟨l, hl, hne⟩ := t.file?_ne hc
      refine hne (Eq.trans (Eq.symm (file?_runFiles rules .write _ fun r hr _ => ?_)) (h l))
      rw [t.sameNames.locate]
      have hr := List.mem_map_of_mem (f := FileReport.path) hr
      rw [runFiles_paths] at hr
      exact helsewhere _ hr l hl
    have hkept := t.kept (.inr hfirst)
    have hothers := ih hpaths fun l => by simpa only [runFiles, hkept] using h l
    simpa [runFiles, hkept, hfirst] using hothers

/-- A file is in the end as the last changed report about it says. -/
theorem file?_of_last_changed {pre post : List String} {path : String} {r : FileReport}
    (hr : (runFiles rules .write w (pre ++ path :: post)).reports[pre.length]? = some r)
    (hc : r.changed = true)
    (hlast : ∀ r' ∈ (runFiles rules .write w (pre ++ path :: post)).reports.drop (pre.length + 1),
      r'.changed = true → w.locate r'.path ≠ w.locate path) :
    ∃ l source f, w.locate path = .ok l ∧
      (runFiles rules .write w pre).workspace.readText path = .ok source ∧
      format rules source = .ok f ∧
      (runFiles rules .write w (pre ++ path :: post)).workspace.file? l =
        some f.rendered.toUTF8 := by
  obtain ⟨r', hr', t⟩ := runFiles_turn rules .write w pre path post
  cases hr.symm.trans hr'
  obtain ⟨l, source, f, hl, -, hread, hformat, hlater⟩ := t.written rfl hc
  rw [(sameNames_runFiles rules .write w pre).locate] at hl
  refine ⟨l, source, f, hl, hread, hformat, ?_⟩
  have hcut : pre ++ path :: post = (pre ++ [path]) ++ post := by simp
  obtain ⟨hreports, hworkspace⟩ := runFiles_append rules .write w (pre ++ [path]) post
  have hlength : pre.length + 1 = (runFiles rules .write w (pre ++ [path])).reports.length := by
    simp [length_reports]
  rw [hcut, hreports, hlength, List.drop_left] at hlast
  rw [hcut, hworkspace, file?_runFiles, hlater, Workspace.file?_put, if_pos rfl]
  intro r' hr' hc'
  rw [(sameNames_runFiles rules .write w (pre ++ [path])).locate, ← hl]
  exact hlast r' hr' hc'

/-- **A file without a layout stays as it is**, and every report about it tells of an obstacle. -/
theorem read_of_no_layout {path : String} {error : FormatError}
    (h : formatFile rules w path = .error error) :
    (runFiles rules .write w paths).workspace.read path = w.read path ∧
      ∀ r ∈ (runFiles rules .write w paths).reports,
        w.locate r.path = w.locate path → r.obstacle ≠ none := by
  induction paths generalizing w with
  | nil => simp [runFiles]
  | cons other paths ih =>
    have t := turn_runFile rules .write w other
    -- its own turn finds an obstacle, and any other turn writes elsewhere
    have hfirst : w.locate other = w.locate path →
        (runFile rules .write w other).report.obstacle ≠ none := by
      intro hsame hnone
      obtain ⟨source, f, hread, hformat, -⟩ := t.laidOut hnone
      have hread' : w.readText path = .ok source := by
        rw [← hread, Workspace.readText, Workspace.readText, Workspace.read, Workspace.read, hsame]
      simp [formatFile, hread', hformat] at h
    have hfile : ∀ l, w.locate path = .ok l →
        (runFile rules .write w other).workspace.file? l = w.file? l := by
      intro l hl
      refine t.file?_eq fun hc hother => ?_
      simp [(t.failed (hfirst (hother.trans hl.symm))).1] at hc
    have hread := t.sameNames.read hfile
    have hnext : formatFile rules (runFile rules .write w other).workspace path = .error error := by
      rw [← h, formatFile, formatFile, t.sameNames.readText hfile]
    obtain ⟨hothers, hreports⟩ := ih hnext
    refine ⟨hothers.trans hread, ?_⟩
    simp only [t.sameNames.locate] at hreports
    rw [runFiles, List.forall_mem_cons, t.path_eq]
    exact ⟨hfirst, hreports⟩

end Runs

/-! ### Commands -/

/-- The arguments of a check. A check writes nothing, whether writing is asked for or not. -/
def Arguments.checking (a : Arguments) : Arguments := { a with check := true }

/-- The arguments of a run that writes. -/
def Arguments.writing (a : Arguments) : Arguments := { a with check := false, write := true }

namespace Command

/-- A run that writes ends well if nothing has failed. -/
theorem runCode_write (r : Report) : runCode .write r = 0 ↔ r.summary.failed = 0 := by
  simp [runCode, Report.hasFailures, failed]

/-- A check ends well if nothing has failed and nothing would change. -/
theorem runCode_check (r : Report) :
    runCode .check r = 0 ↔ r.summary.failed = 0 ∧ r.summary.changed = 0 := by
  simp only [runCode, Report.hasFailures, failed, unformatted]
  grind

variable {a : Arguments} {rules : Rules} {w : Workspace}

theorem perform_paths (input : ByteArray) (hpaths : a.paths ≠ []) (htree : a.dumpTree = false)
    (hrules : loadRules w (sources a) = .ok rules) :
    perform a input w = performPaths rules a w := by
  simp [perform, hrules, htree, hpaths]

/-- Without rules a command fails. -/
theorem perform_of_no_rules (input : ByteArray) {fault : SettingsFault}
    (h : loadRules w (sources a) = .error fault) : (perform a input w).code = failed := by
  simp [perform, h]

/-- **A check ends well** if and only if there are rules, and every report is clean in a run that
writes. -/
theorem code_checking (input : ByteArray) (hpaths : a.paths ≠ []) (htree : a.dumpTree = false)
    (hfiles : ∀ path ∈ a.paths, w.isDirectory path = false) :
    (perform a.checking input w).code = 0 ↔ ∃ rules, loadRules w (sources a) = .ok rules ∧
      ∀ r ∈ (runFiles rules .write w a.paths).reports, r.IsClean := by
  cases hrules : loadRules w (sources a) with
  | error fault =>
    have hfailed : (perform a.checking input w).code = failed := perform_of_no_rules input hrules
    simp [hfailed, failed]
  | ok rules =>
    have hperform : perform a.checking input w = performPaths rules a.checking w :=
      perform_paths input hpaths htree hrules
    have hcode : (perform a.checking input w).code =
        runCode .check (runFiles rules .check w a.paths).report := by
      rw [hperform, ← runPaths_of_not_directory hfiles]
      rfl
    rw [hcode, runCode_check, ← Run.forall_isClean, clean_iff .check .write]
    simp

end Command

/-! ### Runs -/

/-- **What runs over files keep to**, whatever is in the files and however often a path comes. A
turn is told of by what comes before and after it: `runPaths rules mode w pre` is the run up to it.
-/
structure Orderly (rules : Rules) (w : Workspace) (paths : List String) : Prop where
  /-- There is one report for each path, in their order. -/
  reports : ∀ mode, (runPaths rules mode w paths).report.files.map (·.path) = paths
  /-- The summary counts over these reports. -/
  counts : ∀ mode, (runPaths rules mode w paths).report.summary =
    Summary.over (runPaths rules mode w paths).report.files
  /-- Every path has its turn, with the files as the turns before it have left them. -/
  turns : ∀ mode pre path post, paths = pre ++ path :: post →
    ∃ r, (runPaths rules mode w paths).report.files[pre.length]? = some r ∧
      Turn rules mode (runPaths rules mode w pre).workspace path r
        (runPaths rules mode w (pre ++ [path])).workspace
  /-- What a text without a layout is reported for is its header, and the run goes on. -/
  headers : ∀ source error, format rules source = .error error → ∃ d, error = .unreadable d
  /-- Only a run that writes changes anything. -/
  untouched : ∀ mode, mode ≠ .write → (runPaths rules mode w paths).workspace = w
  /-- There are the same directories afterwards, and files at the same places. -/
  sameNames : ∀ mode, w.SameNames (runPaths rules mode w paths).workspace
  /-- A file is left alone if no changed report is about it. -/
  spared : ∀ l, (∀ r ∈ (runPaths rules .write w paths).report.files,
      r.changed = true → w.locate r.path ≠ .ok l) →
    (runPaths rules .write w paths).workspace.file? l = w.file? l
  /-- A file ends as the layout of what was read in the turn of the last changed report about it. -/
  replaced : ∀ pre path post r, paths = pre ++ path :: post →
    (runPaths rules .write w paths).report.files[pre.length]? = some r → r.changed = true →
    (∀ r' ∈ (runPaths rules .write w paths).report.files.drop (pre.length + 1),
      r'.changed = true → w.locate r'.path ≠ w.locate path) →
    ∃ l source f, w.locate path = .ok l ∧
      (runPaths rules .write w pre).workspace.readText path = .ok source ∧
      format rules source = .ok f ∧
      (runPaths rules .write w paths).workspace.file? l = some f.rendered.toUTF8
  /-- A file without a layout stays as it is, and is reported whenever a path leads to it. -/
  noLayout : ∀ path error, formatFile rules w path = .error error →
    (runPaths rules .write w paths).workspace.read path = w.read path ∧
      ∀ r ∈ (runPaths rules .write w paths).report.files,
        w.locate r.path = w.locate path → r.obstacle ≠ none
  /-- A run that writes reports no change if and only if no file is ever another one. -/
  unchanged : (runPaths rules .write w paths).report.summary.changed = 0 ↔
    ∀ n l, (runPaths rules .write w (paths.take n)).workspace.file? l = w.file? l
  /-- If the paths lead to different files, it is enough to look at the files at the end. -/
  unchangedAtEnd : (paths.Pairwise fun p q => ∀ l, w.locate p = .ok l → w.locate q ≠ .ok l) →
    ((runPaths rules .write w paths).report.summary.changed = 0 ↔
      ∀ l, (runPaths rules .write w paths).workspace.file? l = w.file? l)
  /-- The command that writes does what the run does, and ends well if the run has no failure. -/
  writing : ∀ (a : Arguments) (input : ByteArray), a.paths = paths → a.dumpTree = false →
    loadRules w (Command.sources a) = .ok rules →
    (Command.perform a.writing input w).workspace = (runPaths rules .write w paths).workspace ∧
    ((Command.perform a.writing input w).code = 0 ↔
      (runPaths rules .write w paths).report.summary.failed = 0)
  /-- The command that checks ends well if and only if there are rules and a run that writes by them
  reports no failure and changes no file at any time. -/
  checking : ∀ (a : Arguments) (input : ByteArray), a.paths = paths → a.dumpTree = false →
    ((Command.perform a.checking input w).code = 0 ↔
      ∃ loaded, loadRules w (Command.sources a) = .ok loaded ∧
        (runPaths loaded .write w paths).report.summary.failed = 0 ∧
        ∀ n l, (runPaths loaded .write w (paths.take n)).workspace.file? l = w.file? l)

/-- **Runs over files are orderly**, and a check tells what writing would do. -/
theorem runs_orderly (rules : Rules) (w : Workspace) (paths : List String) (hne : paths ≠ [])
    (hfiles : ∀ path ∈ paths, w.isDirectory path = false) : Orderly rules w paths := by
  -- without directories among them, the paths are the files
  have hruns : ∀ loaded mode, ∀ first ⊆ paths,
      runPaths loaded mode w first = runFiles loaded mode w first := fun loaded mode first hfirst =>
    runPaths_of_not_directory fun path hpath => hfiles path (hfirst hpath)
  have hrun := fun loaded mode => hruns loaded mode paths (List.Subset.refl paths)
  have htake := fun loaded n => hruns loaded .write _ (List.take_subset n paths)
  constructor
  case reports => exact fun mode => hrun rules mode ▸ runFiles_paths rules mode w paths
  case counts => exact fun mode => summary_ofFiles _
  case turns =>
    rintro mode pre path post rfl
    rw [hrun, hruns rules mode pre (by simp), hruns rules mode (pre ++ [path]) (by simp)]
    exact runFiles_turn rules mode w pre path post
  case headers => exact fun source error h => exists_unreadable_of_format h
  case untouched =>
    intro mode hmode
    rw [hrun, workspace_runFiles rules mode w (.inl hmode)]
  case sameNames => exact fun mode => hrun rules mode ▸ sameNames_runFiles rules mode w paths
  case spared =>
    rw [hrun]
    exact fun l h => file?_runFiles rules .write w h
  case replaced =>
    rintro pre path post r rfl
    rw [hrun, hruns rules .write pre (by simp)]
    exact file?_of_last_changed
  case noLayout =>
    rw [hrun]
    exact fun path error h => read_of_no_layout h
  case unchanged =>
    simp only [hrun, htake, Run.changed_eq_zero]
    exact unchanged_iff
  case unchangedAtEnd =>
    intro hpaths
    rw [hrun, Run.changed_eq_zero]
    refine ⟨fun h l => ?_, unchanged_of_file?_eq hpaths⟩
    rw [workspace_runFiles rules .write w (.inr h)]
  case writing =>
    rintro a input rfl htree hrules
    have hperform : Command.perform a.writing input w = Command.performPaths rules a.writing w :=
      Command.perform_paths input hne htree hrules
    rw [hperform]
    exact ⟨rfl, Command.runCode_write _⟩
  case checking =>
    rintro a input rfl htree
    rw [Command.code_checking input hne htree hfiles]
    simp only [Run.forall_isClean, Run.changed_eq_zero, unchanged_iff, hrun, htake]

/-- A grammar that is not laid out, one with a broken header, and bytes that are no text. -/
def mixedFiles : Workspace where
  directories := [["sub"]]
  files := [(["sub", "Messy.g4"], "grammar T;\nfoo : 'a' 'b' ;".toUTF8),
    (["Bad.g4"], "grammar ;".toUTF8), (["Latin.g4"], ⟨#[0xE9]⟩)]

/-- Paths to these files and to one that is not there. The first file comes again at the end, when
it is laid out. -/
def mixedPaths : List String :=
  ["sub/Messy.g4", "Bad.g4", "Latin.g4", "gone.g4", "sub/../sub/Messy.g4"]

theorem runs_orderly_mixed : mixedPaths ≠ [] ∧
    (∀ path ∈ mixedPaths, mixedFiles.isDirectory path = false) ∧
    Orderly Rules.standard mixedFiles mixedPaths ∧
    (runPaths Rules.standard .write mixedFiles mixedPaths).report.summary = ⟨5, 1, 3, 0, 0⟩ := by
  have hne : mixedPaths ≠ [] := by decide
  have hfiles : ∀ path ∈ mixedPaths, mixedFiles.isDirectory path = false := by decide +kernel
  exact ⟨hne, hfiles, runs_orderly Rules.standard mixedFiles mixedPaths hne hfiles,
    by decide +kernel⟩

end GrammarLayout
