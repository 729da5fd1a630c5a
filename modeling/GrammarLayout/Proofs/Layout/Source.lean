import GrammarLayout.Proofs.Layout.Completion
import Mathlib.Data.List.TakeWhile

/-!
# The page of a source

What has been assumed of streams so far holds of the stream of every source: comments are known by
their start, braces of actions stand where actions start and end, and nothing is hidden inside an
action. Rules that pass their check take exactly the comments of a source for comments. So every
source that can be formatted has a complete page, and its layout is the text of that page
(`exists_page_of_format`).

The formatter is given rules that say what a comment is, by a list of openers. Its results are about
the comments of the scan, so the two have to agree. Rules that pass their check have an opener for
each start of a comment (`covers_of_check`), and a hidden token of the scan that is no comment is
whitespace, which no opener matches. That is all that is needed of rules here, so what follows holds
of all rules that pass their check.

The text that is given to the rules is trimmed on both sides, while a comment is written with blanks
trimmed off its end only; `isComment_trimStringEnd` says that this makes no difference.
-/

namespace GrammarLayout

/-! ### Trimming -/

/-- Characters that separate lexemes are blank. -/
theorem isBlank_of_isSpace {c : Char} (h : Lexeme.isSpace c = true) : isBlank c = true := by
  simp only [Lexeme.isSpace, Bool.or_eq_true, beq_iff_eq] at h
  rcases h with (((rfl | rfl) | rfl) | rfl) | rfl <;> decide

theorem trimEnd_of_allBlank {cs : List Char} (h : ∀ c ∈ cs, isBlank c = true) :
    trimEnd cs = [] := by
  have hd : cs.reverse.dropWhile isBlank = [] :=
    List.dropWhile_eq_nil_iff.2 fun c hc ↦ h c (List.mem_reverse.1 hc)
  rw [trimEnd, hd, List.reverse_nil]

/-- Trimming does not reach past a character that is not blank. -/
theorem trimEnd_append (cs : List Char) {c : Char} (hc : isBlank c = false) (more : List Char) :
    trimEnd (cs ++ c :: more) = cs ++ c :: trimEnd more := by
  rw [trimEnd, trimEnd, List.reverse_append, List.reverse_cons, List.append_assoc,
    List.dropWhile_append]
  split
  · rename_i hm
    rw [List.singleton_append, List.dropWhile_cons_of_neg (by simp [hc]), List.isEmpty_iff.1 hm]
    simp
  · simp

/-- A text with the start of a comment keeps it when it is trimmed. -/
theorem trim_of_start {a b : Char} (ha : isBlank a = false) (hb : isBlank b = false)
    (more : List Char) : trim (a :: b :: more) = a :: b :: trimEnd more := by
  rw [trim, trimStart, List.dropWhile_cons_of_neg (by simp [ha])]
  exact trimEnd_append [a] hb more

theorem trimEnd_append_blank (cs : List Char) {bs : List Char} (hb : ∀ c ∈ bs, isBlank c = true) :
    trimEnd (cs ++ bs) = trimEnd cs := by
  rw [trimEnd, List.reverse_append,
    List.dropWhile_append_of_pos fun c hc ↦ hb c (List.mem_reverse.1 hc), trimEnd]

theorem exists_trimEnd_append (cs : List Char) :
    ∃ bs, cs = trimEnd cs ++ bs ∧ ∀ c ∈ bs, isBlank c = true := by
  refine ⟨(cs.reverse.takeWhile isBlank).reverse, ?_, fun c hc ↦ ?_⟩
  · rw [trimEnd, ← List.reverse_append, List.takeWhile_append_dropWhile, List.reverse_reverse]
  · exact List.all_eq_true.1 List.all_takeWhile c (List.mem_reverse.1 hc)

@[simp] theorem trimEnd_trimEnd (cs : List Char) : trimEnd (trimEnd cs) = trimEnd cs := by
  obtain ⟨bs, hcs, hb⟩ := exists_trimEnd_append cs
  have h := trimEnd_append_blank (trimEnd cs) hb
  rw [← hcs] at h
  exact h.symm

/-- Trimming at both ends does not depend on the blanks at the end. -/
theorem trim_trimEnd (cs : List Char) : trim (trimEnd cs) = trim cs := by
  obtain ⟨bs, hcs, hb⟩ := exists_trimEnd_append cs
  generalize trimEnd cs = ds at hcs
  subst hcs
  rw [trim, trim, trimStart, trimStart, List.dropWhile_append]
  split
  · rename_i he
    rw [List.isEmpty_iff.1 he, List.dropWhile_eq_nil_iff.2 hb]
  · rw [trimEnd_append_blank _ hb]

/-- Whether a text is a comment does not depend on the blanks at its end. -/
theorem isComment_trimStringEnd (r : Rules) (text : String) :
    r.isComment (trimStringEnd text) = r.isComment text := by
  rw [Rules.isComment, Rules.isComment, trimStringEnd, String.toList_ofList, trim_trimEnd]

/-! ### The stream of a source -/

/-- A hidden token that is no comment is whitespace. -/
theorem Token.kind_eq_whitespace {t : Token} (hh : t.isHidden = true)
    (hp : t.isPlainComment = false) : t.kind = .whitespace := by
  have hk : t.kind.isHidden = true := hh
  simp only [Token.isPlainComment, Bool.or_eq_false_iff, beq_eq_false_iff_ne] at hp
  cases h : t.kind <;> simp_all [Kind.isHidden, Kind.channel]

/-- What is known of comments in a source: their first two characters, of which the second tells a
line comment. -/
theorem start_of_isPlainComment {source : String} {t : Token} (ht : t ∈ (tokenize source).toList)
    (hp : t.isPlainComment = true) :
    ∃ b more, (b = '/' ∨ b = '*') ∧ (t.kind = .lineComment → b = '/') ∧
      t.text.toList = '/' :: b :: more := by
  have hf : t.segment.kind ≠ .eof → t.segment.Formed :=
    forall_mem_tokenize (P := fun s ↦ s.kind ≠ .eof → s.Formed) (fun h ↦ absurd rfl h)
      (fun s hs _ ↦ Segment.formed_ofChars none _ s hs) t ht
  simp only [Token.isPlainComment, Bool.or_eq_true, beq_iff_eq] at hp
  rcases hp with hk | hk
  · have hf := hf (by simp [Token.segment, hk])
    obtain ⟨more, hm⟩ := hf.block hk
    exact ⟨'*', more, .inr rfl, fun h ↦ absurd (hk.symm.trans h) (by decide), hm.symm⟩
  · have hf := hf (by simp [Token.segment, hk])
    obtain ⟨more, hm⟩ := hf.line hk
    exact ⟨'/', more, .inl rfl, fun _ ↦ rfl, hm.symm⟩

/-- A comment is more than blanks. -/
theorem text_comment_ne_nil {source : String} {t : Token} (ht : t ∈ (tokenize source).toList)
    (hp : t.isPlainComment = true) : t.comment.text ≠ [] := by
  obtain ⟨b, more, -, -, he⟩ := start_of_isPlainComment ht hp
  rw [Token.comment, he, show trimEnd ('/' :: b :: more) = '/' :: trimEnd (b :: more) from
    trimEnd_append [] (by decide) (b :: more)]
  exact List.cons_ne_nil _ _

/-- Rules that pass their check have an opener for each start of a comment. -/
theorem covers_of_check {r : Rules} (hr : r.check = none) {b : Char} (hb : b = '/' ∨ b = '*') :
    r.commentOpeners.any (Rules.startsWith · ['/', b]) = true := by
  rw [Rules.check] at hr
  split at hr
  · exact absurd hr (by simp)
  · have hf := Option.map_eq_none_iff.1 hr
    rw [List.find?_eq_none] at hf
    have hc : ∀ start ∈ Rules.commentStarts, r.covers start = true := fun start hs ↦ by
      simpa using hf start hs
    rcases hb with rfl | rfl
    · exact hc "//" (by simp [Rules.commentStarts])
    · exact hc "/*" (by simp [Rules.commentStarts])

/-- Every source is legible: actions are whole runs of tokens, and comments start as comments do. -/
theorem legible_tokenize (source : String) : Legible (tokenize source) where
  comment := by
    intro t ht hp
    obtain ⟨b, more, hb, hl, he⟩ := start_of_isPlainComment ht hp
    -- two characters that are not blank come first, so trimming leaves them
    have hbb : isBlank b = false := by rcases hb with rfl | rfl <;> decide
    refine ⟨?_, fun hk ↦ ?_⟩
    · simp only [Token.isPlainComment, Bool.or_eq_true, beq_iff_eq] at hp
      rcases hp with hk | hk <;> simp only [Token.comment, hk] <;> rfl
    · rw [Token.comment, he, show trimEnd ('/' :: b :: more) = '/' :: b :: trimEnd more from
        trimEnd_append ['/'] hbb more, hl hk]
      rfl
  beginAction := by
    refine forall_mem_tokenize (P := fun s ↦ s.kind = .beginAction → s = ⟨.beginAction, ['\x7b']⟩)
      (fun h ↦ absurd h (by decide)) fun s hs hk ↦ ?_
    rw [← hk, ← (Segment.formed_ofChars none _ s hs).opening hk]
  endAction := by
    refine forall_mem_tokenize (P := fun s ↦ s.kind = .endAction → s = ⟨.endAction, ['\x7d']⟩)
      (fun h ↦ absurd h (by decide)) fun s hs hk ↦ ?_
    rw [← hk, ← (Segment.formed_ofChars none _ s hs).closing hk]
  quiet := by
    intro t ht hk
    obtain ⟨A, B, hAB⟩ := List.append_of_mem ht
    -- what follows a piece is its neighbour, which is not hidden
    have hchain : (Segment.ofChars none source.toList ++ [Segment.endMarker]).IsChain
        Segment.Quiet := by
      refine List.isChain_append.2 ⟨Segment.isChain_ofChars none _, List.isChain_singleton _,
        fun a _ b hb _ ↦ ?_⟩
      obtain rfl : Segment.endMarker = b := by simpa using hb
      rfl
    rw [← segments_tokenize, hAB, List.map_append, List.map_cons, List.isChain_append,
      List.isChain_cons] at hchain
    rw [Stream.hiddenAfter_eq, Stream.index_eq_length hAB, hAB, List.append_cons,
      List.drop_left' (by simp)]
    cases B with
    | nil => rfl
    | cons u B =>
      have hu : u.segment.kind.isHidden = false := hchain.2.1.1 u.segment (by simp) hk
      rw [List.takeWhile_cons_of_neg (by rw [show u.isHidden = false from hu]; decide)]
      rfl

/-- Rules that pass their check know the comments of every source. -/
theorem readable_tokenize {r : Rules} (hr : r.check = none) (source : String) :
    Readable r (tokenize source) where
  text_ne_nil := forall_mem_tokenize (P := fun s ↦ s.text ≠ []) (by decide)
    fun s hs ↦ (Segment.formed_ofChars none _ s hs).text_ne
  comment_ne_nil := fun _ ht hp ↦ text_comment_ne_nil ht hp
  isComment_eq := by
    intro t ht hh
    cases hp : t.isPlainComment with
    | true =>
      obtain ⟨b, more, hb, -, he⟩ := start_of_isPlainComment ht hp
      have hbb : isBlank b = false := by rcases hb with rfl | rfl <;> decide
      rw [Rules.isComment, he, trim_of_start (by decide) hbb]
      -- the rules have an opener for this start
      obtain ⟨o, ho, hpre⟩ := List.any_eq_true.1 (covers_of_check hr hb)
      refine Bool.and_eq_true_iff.2 ⟨rfl, List.any_eq_true.2 ⟨o, ho, ?_⟩⟩
      rw [Rules.startsWith, List.isPrefixOf_iff_prefix] at hpre ⊢
      exact hpre.trans ⟨trimEnd more, rfl⟩
    | false =>
      have hw : t.segment.kind = .whitespace := Token.kind_eq_whitespace hh hp
      have hs : ∀ c ∈ t.segment.text, Lexeme.isSpace c = true :=
        forall_mem_tokenize
          (P := fun s ↦ s.kind = .whitespace → ∀ c ∈ s.text, Lexeme.isSpace c = true)
          (fun h ↦ absurd h (by decide))
          (fun s hs ↦ (Segment.formed_ofChars none _ s hs).space) t ht hw
      -- whitespace is trimmed to nothing, which starts with no opener
      have hb : trim t.text.toList = [] :=
        trimEnd_of_allBlank fun c hc ↦
          isBlank_of_isSpace (hs c ((List.dropWhile_sublist _).subset hc))
      rw [Rules.isComment, hb]
      rfl

/-! ### The page of a source -/

/-- The text put out for a tree over a source is that of its page. -/
theorem rendered_ofTree {r : Rules} (hr : r.check = none) {source : String} {tree : Tree}
    (ho : Over (tokenize source).mainTokens [tree]) :
    (Formatter.ofTree r (tokenize source) tree).formatted.rendered.toList =
      (Page.ofTree r (tokenize source) tree).text r.indentWidth := by
  obtain ⟨m, hm⟩ := shows_ofTree (readable_tokenize hr source) ho
  exact hm.toList_rendered

/-- A source is formatted exactly if its header can be read. There is no other way for formatting to
fail. -/
theorem format_eq_ok_iff {r : Rules} {source : String} {out : Formatted} :
    format r source = .ok out ↔ ∃ tree, parse (tokenize source) = .ok tree ∧
      (Formatter.ofTree r (tokenize source) tree).formatted = out := by
  unfold format layoutSource
  dsimp only
  cases parse (tokenize source) with
  | error d => simp
  | ok tree => simp

/-- A source is not formatted exactly if its header cannot be read. -/
theorem format_eq_error_iff {r : Rules} {source : String} {e : FormatError} :
    format r source = .error e ↔
      ∃ d, parse (tokenize source) = .error d ∧ FormatError.unreadable d = e := by
  unfold format layoutSource
  dsimp only
  cases parse (tokenize source) with
  | error d => simp
  | ok tree => simp

/-- Whether a source is formatted, with a layout that passes a test. -/
def formatsTo (r : Rules) (source : String) (test : Formatted → Bool) : Bool :=
  match format r source with
  | .ok out => test out
  | .error _ => false

/-- What the test says, by evaluation. -/
theorem exists_of_formatsTo {r : Rules} {source : String} {test : Formatted → Bool}
    (h : formatsTo r source test = true) : ∃ out, format r source = .ok out ∧ test out = true := by
  unfold formatsTo at h
  split at h
  · rename_i out ho
    exact ⟨out, ho, h⟩
  · exact absurd h (by decide)

/-- **A layout is the text of a page**: that of the tree of the source, which is one node over a
forest of all main tokens. -/
theorem exists_page_of_format {r : Rules} (hr : r.check = none) {source : String} {out : Formatted}
    (h : format r source = .ok out) :
    ∃ ts, parse (tokenize source) = .ok (Tree.ofChildren .grammarSpec ts) ∧
      Forest Pattern.StartsWithToken (fun _ ↦ True) (tokenize source).mainTokens ts ∧
      (∃ t ∈ (tokenize source).mainTokens, t.kind ≠ .eof) ∧
      out.rendered.toList =
        (Page.ofTree r (tokenize source) (Tree.ofChildren .grammarSpec ts)).text r.indentWidth := by
  obtain ⟨tree, hp, rfl⟩ := format_eq_ok_iff.1 h
  obtain ⟨ts, rfl, hF, hne⟩ := forest_of_parse hp
  exact ⟨ts, hp, hF, hne, rendered_ofTree hr hF.over.singleton_node⟩

/-- A layout is the strokes of a complete page, and one line end. This is what later modules start
from. -/
theorem exists_complete_of_format {r : Rules} (hr : r.check = none) {source : String}
    {out : Formatted} (h : format r source = .ok out) :
    ∃ p, Complete r (·.kind ≠ .eof) (tokenize source) p ∧
      out.rendered.toList = inked r.indentWidth p.strokes ++ ['\n'] := by
  obtain ⟨ts, -, hF, hne, ht⟩ := exists_page_of_format hr h
  have hc : ∀ c : Segment, IsCommentText c → c.kind ≠ .eof := fun c hc hk ↦
    absurd hc.hidden (by rw [hk]; decide)
  have hp : Complete r (·.kind ≠ .eof) (tokenize source)
      (Page.ofTree r (tokenize source) (Tree.ofChildren .grammarSpec ts)) :=
    complete_ofTree (legible_tokenize source) hc (hF.mono fun t _ _ hk ↦ hk) hne
  exact ⟨_, hp, by rw [ht, hp.text_eq]⟩

end GrammarLayout
