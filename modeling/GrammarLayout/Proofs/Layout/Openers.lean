import GrammarLayout.Proofs.Layout.Source

/-!
# What the check of the rules decides

`Rules.check` looks at the openers alone: each of the two starts of a comment has to begin with one
of them. What it is for is a property of all sources, that the comments among their hidden tokens
are taken for comments and the whitespace is not. The two agree (`check_eq_none_iff`), as long as no
opener is empty.

Rules that pass know the comments of every source, because the text of a comment starts as comments
do, even if it is never closed. Rules that do not pass are refuted by the shortest source there is,
the uncovered start itself: it is a comment, trimming leaves it as it is, and so no opener takes it.
-/

namespace GrammarLayout

namespace Rules

/-- Whether the rules know the comments of a stream: of its hidden tokens, they take the comments
for comments, and nothing else. -/
def KnowsComments (r : Rules) (s : Stream) : Prop :=
  ∀ t ∈ s.toList, t.isHidden = true →
    (r.isComment t.text = true ↔ t.kind = .blockComment ∨ t.kind = .lineComment)

instance (r : Rules) (s : Stream) : Decidable (r.KnowsComments s) :=
  inferInstanceAs (Decidable (∀ t ∈ s.toList, _))

/-- Rules that take exactly the comments of a stream for comments know them. -/
theorem knowsComments_of_readable {r : Rules} {s : Stream} (h : Readable r s) :
    r.KnowsComments s := by
  intro t ht hh
  rw [h.isComment_eq t ht hh, Token.isPlainComment, Bool.or_eq_true, beq_iff_eq, beq_iff_eq]

/-! ### The starts of comments as sources -/

/-- The start of a comment is a source with a hidden comment of that text, which is not closed. -/
theorem exists_comment_of_start {start : String} (h : start ∈ commentStarts) :
    ∃ t ∈ (tokenize start).toList, t.isHidden = true ∧
      (t.kind = .blockComment ∨ t.kind = .lineComment) ∧ t.text = start := by
  simp only [commentStarts, List.mem_cons, List.not_mem_nil, or_false] at h
  rcases h with rfl | rfl
  · decide +kernel
  · decide +kernel

/-- There is nothing to trim of the start of a comment, so it is taken for a comment exactly if it
is covered. -/
theorem isComment_start (r : Rules) {start : String} (h : start ∈ commentStarts) :
    r.isComment start = r.covers start := by
  have htrim : trim start.toList = start.toList ∧ start.toList.isEmpty = false := by
    simp only [commentStarts, List.mem_cons, List.not_mem_nil, or_false] at h
    rcases h with rfl | rfl <;> decide
  rw [isComment, htrim.1, htrim.2, covers]
  rfl

/-- Rules that know the comment a start makes by itself cover that start. -/
theorem covers_of_knowsComments {r : Rules} {start : String} (hs : start ∈ commentStarts)
    (h : r.KnowsComments (tokenize start)) : r.covers start = true := by
  obtain ⟨t, ht, hh, hk, htext⟩ := exists_comment_of_start hs
  have hc : r.isComment t.text = true := (h t ht hh).2 hk
  rwa [htext, isComment_start r hs] at hc

/-! ### The check -/

/-- Without empty openers, rules pass their check exactly if they cover both starts. -/
theorem check_eq_none_iff_covers {r : Rules} (h : "" ∉ r.commentOpeners) :
    r.check = none ↔ ∀ start ∈ commentStarts, r.covers start = true := by
  have hempty : r.commentOpeners.contains "" = false := by simpa using h
  rw [check, hempty, if_neg Bool.false_ne_true, Option.map_eq_none_iff, List.find?_eq_none]
  simp

/-- **The check is exact**: rules without empty openers pass it exactly if they know the comments of
every source. -/
theorem check_eq_none_iff {r : Rules} (h : "" ∉ r.commentOpeners) :
    r.check = none ↔ ∀ source : String, r.KnowsComments (tokenize source) := by
  constructor
  · intro hr source
    exact knowsComments_of_readable (readable_tokenize hr source)
  · intro hk
    refine (check_eq_none_iff_covers h).2 fun start hs ↦ ?_
    exact covers_of_knowsComments hs (hk start)

/-- Openers may be shorter than the starts of comments, but not longer: one slash is enough for
both, and openers of line comments and of banners leave the other block comments of some source
out. -/
theorem slash_opener_is_enough :
    (∀ source : String,
      (Rules.mk 3 [] [] ["/"]).KnowsComments (tokenize source)) ∧
    (Rules.mk 3 [] [] ["//", "/*!"]).check = some (.uncovered "/*") ∧
    ∃ source : String, ¬ (Rules.mk 3 [] [] ["//", "/*!"]).KnowsComments (tokenize source) := by
  refine ⟨(check_eq_none_iff (by decide)).1 (by decide), by decide, ?_⟩
  refine not_forall.1 fun hk ↦ ?_
  exact absurd ((check_eq_none_iff (by decide)).2 hk) (by decide)

end Rules

end GrammarLayout
