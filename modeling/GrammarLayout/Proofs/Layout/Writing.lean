import GrammarLayout.Layout.Formatter

/-!
# What writing leaves as it was

Most of what the formatter does is writing: texts, spaces, line breaks and comments. Writing moves
the writer and uses up comments, and nothing else. It enters and leaves no construct, goes to no
other depth, reports nothing and warns of nothing; and what has been started stays started. All of
this is said once (`Formatter.Writes`), with one lemma for each way of writing, so that whoever asks
for one of these facts does not go through the writing again.

Of what a layout tells, only the warnings matter to others (`Formatter.warnings`); the rest traces
the writing itself.
-/

namespace GrammarLayout

namespace Formatter

/-- What a layout has warned of so far. -/
def warnings (f : Formatter) : List Notice := f.notices.toList.filter (·.isWarning)

theorem warnings_note (f : Formatter) {n : Notice} (hn : n.isWarning = false) :
    (f.note n).warnings = f.warnings := by
  simp [warnings, note, hn]

theorem warnings_noteAll (f : Formatter) {ns : List Notice} (hn : ∀ n ∈ ns, n.isWarning = true) :
    (f.noteAll ns).warnings = f.warnings ++ ns := by
  have hkept : ns.filter (·.isWarning) = ns := List.filter_eq_self.2 hn
  simp [warnings, noteAll, hkept]

/-- A formatter that has only written since. -/
structure Writes (f f' : Formatter) : Prop where
  /-- The rules are the same. -/
  rules : f'.rules = f.rules
  /-- The stream is the same. -/
  stream : f'.stream = f.stream
  /-- It is inside the same constructs. -/
  frames : f'.frames = f.frames
  /-- It is at the same depth. -/
  indent : f'.indent = f.indent
  /-- Nothing more is reported. -/
  diagnostics : f'.diagnostics = f.diagnostics
  /-- Nothing more is warned of. -/
  warnings : f'.warnings = f.warnings
  /-- The output stays started. -/
  started : f.writer.started = true → f'.writer.started = true

namespace Writes

variable {f f' f'' : Formatter}

theorem refl (f : Formatter) : Writes f f := ⟨rfl, rfl, rfl, rfl, rfl, rfl, id⟩

theorem trans (h : Writes f f') (h' : Writes f' f'') : Writes f f'' where
  rules := h'.rules.trans h.rules
  stream := h'.stream.trans h.stream
  frames := h'.frames.trans h.frames
  indent := h'.indent.trans h.indent
  diagnostics := h'.diagnostics.trans h.diagnostics
  warnings := h'.warnings.trans h.warnings
  started := h'.started ∘ h.started

theorem foldl {α : Type} {step : Formatter → α → Formatter} (h : ∀ f a, Writes f (step f a))
    (as : List α) (f : Formatter) : Writes f (as.foldl step f) := by
  induction as generalizing f with
  | nil => exact .refl f
  | cons a as ih => exact (h f a).trans (ih (step f a))

end Writes

/-! ### Ways of writing -/

/-- A notice that is no warning only traces the writing. -/
theorem writes_note (f : Formatter) {n : Notice} (hn : n.isWarning = false) :
    Writes f (f.note n) :=
  ⟨rfl, rfl, rfl, rfl, rfl, warnings_note f hn, id⟩

theorem writes_write (f : Formatter) (text : String) :
    Writes f (f.perform (f.writer.write text)) := by
  refine ⟨rfl, rfl, rfl, rfl, rfl, rfl, fun h ↦ ?_⟩
  rw [perform, Writer.write]
  split
  · exact h
  · rfl

theorem writes_lineBreak (f : Formatter) : Writes f f.lineBreak := by
  refine ⟨rfl, rfl, rfl, rfl, rfl, rfl, fun h ↦ ?_⟩
  rw [lineBreak, perform, Writer.lineBreak, if_pos h]
  exact h

theorem writes_settleBreak (f : Formatter) : Writes f f.settleBreak := by
  rw [settleBreak]
  split
  · exact writes_lineBreak f
  · exact .refl f

theorem writes_writeText (f : Formatter) (text : String) : Writes f (f.writeText text) :=
  { writes_write f text with }

theorem writes_writeSpace (f : Formatter) (text : String) : Writes f (f.writeSpace text) := by
  rw [writeSpace]
  split
  · exact writes_write f " "
  · exact .refl f

theorem writes_emit (f : Formatter) (text : String) : Writes f (f.emit text) := by
  rw [emit]
  split
  · exact writes_settleBreak f
  · exact ((writes_settleBreak f).trans (writes_writeSpace _ text)).trans (writes_writeText _ text)

theorem writes_endComment (f : Formatter) (category : Category) (text : String) :
    Writes f (f.endComment category text) := by
  rw [endComment]
  split
  · exact writes_lineBreak f
  · split
    · exact ⟨rfl, rfl, rfl, rfl, rfl, rfl, id⟩
    · exact .refl f

theorem writes_writeComment (category : Category) (f : Formatter) (comment : Token) :
    Writes f (writeComment category f comment) := by
  have hbreak : ∀ g : Formatter,
      Writes g (if g.breaksBeforeComment category then g.lineBreak else g) := by
    intro g
    split
    · exact writes_lineBreak g
    · exact .refl g
  have hnote := writes_note f (n := .comment comment.index category) rfl
  exact ((hnote.trans (hbreak _)).trans (writes_writeText _ _)).trans (writes_endComment _ _ _)

theorem writes_writeComments (f : Formatter) (category : Category) (given : List Token × Marks) :
    Writes f (f.writeComments category given) := by
  have hmarks : Writes f { f with marks := given.2 } := ⟨rfl, rfl, rfl, rfl, rfl, rfl, id⟩
  exact hmarks.trans (.foldl (writes_writeComment category) given.1 _)

theorem writes_commentsBefore (f : Formatter) (category : Category) (span : Option Span) :
    Writes f (f.commentsBefore category span) := by
  cases span with
  | none => exact .refl f
  | some span => exact writes_writeComments f category _

theorem writes_commentsAfter (f : Formatter) (category : Category) (span : Option Span) :
    Writes f (f.commentsAfter category span) := by
  cases span with
  | none => exact .refl f
  | some span => exact writes_writeComments f category _

end Formatter

end GrammarLayout
